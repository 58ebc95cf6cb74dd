import ExprEngine.Pattern.Glob.Check
import ExprEngine.Proofs.Pattern.Tokens

/-!
# Faults of globs

What the validator finds, told by tokens: a token has a fault or none, and leaves the validator
inside an alternation or outside.

* `firstFault_token`: the validator passes one token.
* `exists_spelling`: a pattern without a fault is the spelling of tokens.
* `exists_of_rowFault`: a fault lies at the first token that has one.
* `exists_opening`: where an alternation is open, the brace that opens it.
* `refused_of_check`: what a pattern looks like that is refused because it can never match.
-/

namespace ExprEngine.Glob

open Glyph

namespace Token

/-- The byte with which the token ends. -/
def last : Token → UInt8
  | star => byte '*'
  | any => byte '?'
  | ofClass _ _ => byte ']'
  | lit g _ => g.val

/-- An alternation is open behind the token. -/
def opens (t : Token) (inWord : Bool) : Bool :=
  if t.isBare (byte '{') then true else if t.isBare (byte '}') then false else inWord

theorem opens_of_closing {t : Token} (h : t.isBare (byte '}') = true) (inWord : Bool) :
    t.opens inWord = false := by
  cases t with
  | lit g plain =>
      obtain rfl := eq_mark (by decide) h
      rfl
  | _ => cases h

theorem opens_of_neither {t : Token} (ho : t.isBare (byte '{') = false)
    (hc : t.isBare (byte '}') = false) (inWord : Bool) : t.opens inWord = inWord := by
  simp [opens, ho, hc]

/-- What is wrong with a token that stands between these two bytes. -/
def fault (t : Token) (inWord : Bool) (before next : Option UInt8) : Option Malformed :=
  if t.isBare (byte '{') then
    if inWord then some .nestedWord else (before.filter (!mayPrecedeWord ·)).map .beforeWord
  else if t.isBare (byte '}') then (next.filter (!mayFollowWord ·)).map .afterWord
  else if t.isBare (byte ' ') && inWord then some .spaceInWord
  else none

theorem fault_of_closing {t : Token} (h : t.isBare (byte '}') = true) (inWord : Bool)
    (before next : Option UInt8) :
    t.fault inWord before next = (next.filter (!mayFollowWord ·)).map .afterWord := by
  cases t with
  | lit g plain =>
      obtain rfl := eq_mark (by decide) h
      rfl
  | _ => cases h

end Token

section

variable {inWord : Bool} {before : Option UInt8} {rest : List UInt8}

theorem firstFault_nil :
    firstFault inWord before [] = if inWord then some .unclosedWord else none := by
  rw [firstFault]

theorem firstFault_backslash (rest : List UInt8) :
    firstFault inWord before (byte '\\' :: rest) = firstFault inWord rest.head? (rest.drop 1) := by
  rw [firstFault, if_pos rfl]

theorem firstFault_bracket (rest : List UInt8) :
    firstFault inWord before (byte '[' :: rest) =
      match findUnescaped? (byte ']') (byte '[' :: rest) with
      | some n => firstFault inWord (byte '[' :: rest)[n]? (rest.drop n)
      | none => some .unclosedClass := by
  rw [firstFault]
  refine (if_neg (by decide)).trans ((if_pos rfl).trans ?_)
  cases findUnescaped? (byte ']') (byte '[' :: rest) <;> rfl

theorem firstFault_class {body : List Glyph} (closed : ∀ g ∈ body, g.isBare (byte ']') = false)
    (rest : List UInt8) :
    firstFault inWord before (byte '[' :: (spelled body ++ byte ']' :: rest)) =
      firstFault inWord (some (byte ']')) rest := by
  have hopen : ∀ g ∈ mark '[' (by decide) :: body, g.isBare (byte ']') = false :=
    List.forall_mem_cons.mpr ⟨by decide, closed⟩
  have hf := findUnescaped?_first (by decide) hopen rest
  rw [spelled_cons, spelling_mark, List.singleton_append, List.cons_append] at hf
  rw [firstFault_bracket, hf]
  simp

theorem firstFault_bare {b : UInt8} (hb : b ≠ byte '\\') (hc : b ≠ byte '[')
    (rest : List UInt8) :
    firstFault inWord before (b :: rest) =
      if b = byte '{' then
        if inWord then some .nestedWord
        else
          ((before.filter (!mayPrecedeWord ·)).map .beforeWord).or (firstFault true (some b) rest)
      else if b = byte '}' then
        ((rest.head?.filter (!mayFollowWord ·)).map .afterWord).or (firstFault false (some b) rest)
      else if b = byte ' ' ∧ inWord then some .spaceInWord
      else firstFault inWord (some b) rest := by
  rw [firstFault, if_neg hb, if_neg hc]
  cases before.filter (!mayPrecedeWord ·) <;> cases rest.head?.filter (!mayFollowWord ·) <;> rfl

/-- The validator passes one token. -/
theorem firstFault_token (t : Token) (rest : List UInt8) :
    firstFault inWord before (t.spelling ++ rest) =
      (t.fault inWord before rest.head?).or (firstFault (t.opens inWord) (some t.last) rest) := by
  cases t with
  | star => exact firstFault_bare (by decide) (by decide) rest
  | any => exact firstFault_bare (by decide) (by decide) rest
  | ofClass body closed =>
      rw [Token.spelling_ofClass, List.cons_append, List.append_assoc, List.singleton_append,
        firstFault_class closed]
      rfl
  | lit g plain =>
      rw [Token.spelling_lit]
      cases g with
      | escaped b => exact firstFault_backslash (b :: rest)
      | bare b hb =>
          simp only [isPlain, isBare, Bool.not_eq_true', Bool.or_eq_false_iff,
            beq_eq_false_iff_ne] at plain
          rw [show (bare b hb).spelling ++ rest = b :: rest from rfl, firstFault_bare hb plain.2]
          simp only [Token.fault, Token.opens, Token.isBare, Token.last, isBare, val, beq_iff_eq]
          split
          · split <;> simp
          · split
            · rfl
            · simp only [Bool.and_eq_true, beq_iff_eq]
              split <;> simp

end

/-! ### Rows of tokens -/

/-- An alternation is open behind the tokens. -/
def isOpenAfter (inWord : Bool) (ts : List Token) : Bool :=
  ts.foldl (fun w t => t.opens w) inWord

@[simp] theorem isOpenAfter_cons (inWord : Bool) (t : Token) (ts : List Token) :
    isOpenAfter inWord (t :: ts) = isOpenAfter (t.opens inWord) ts := rfl

@[simp] theorem isOpenAfter_append (inWord : Bool) (ts us : List Token) :
    isOpenAfter inWord (ts ++ us) = isOpenAfter (isOpenAfter inWord ts) us :=
  List.foldl_append

/-- The byte before what follows the tokens. -/
def lastByte (before : Option UInt8) (ts : List Token) : Option UInt8 :=
  ts.foldl (fun _ t => some t.last) before

/-- The first fault of a row of tokens between these two bytes. -/
def rowFault (inWord : Bool) (before : Option UInt8) :
    List Token → Option UInt8 → Option Malformed
  | [], _ => none
  | t :: ts, next =>
    (t.fault inWord before ((spelling ts).head?.or next)).or
      (rowFault (t.opens inWord) (some t.last) ts next)

section

variable {inWord : Bool} {before next : Option UInt8} {ts : List Token} {cs rest : List UInt8}
  {fault : Malformed}

/-- The validator passes a row of tokens. -/
theorem firstFault_spelling (ts : List Token) (rest : List UInt8) :
    firstFault inWord before (spelling ts ++ rest) =
      (rowFault inWord before ts rest.head?).or
        (firstFault (isOpenAfter inWord ts) (lastByte before ts) rest) := by
  induction ts generalizing inWord before with
  | nil => rfl
  | cons t ts ih =>
      rw [spelling_cons, List.append_assoc, firstFault_token, ih, List.head?_append, rowFault,
        Option.or_assoc]
      rfl

theorem check_spelling (ts : List Token) :
    check (spelling ts) = none ↔
      rowFault false none ts none = none ∧ isOpenAfter false ts = false := by
  rw [check, ← List.append_nil (spelling ts), firstFault_spelling, firstFault_nil,
    Option.or_eq_none_iff]
  simp

/-- A pattern without a fault is the spelling of tokens. -/
theorem exists_spelling (h : firstFault inWord before cs = none) (hd : dangles cs = false) :
    ∃ ts, spelling ts = cs := by
  obtain ⟨ts, rest, rfl, rfl | rfl | ⟨more, rfl, hf⟩⟩ := exists_tokens cs
  · exact ⟨ts, (List.append_nil _).symm⟩
  · cases (dangles_spelled (glyphs ts) [byte '\\']).symm.trans hd
  · rw [firstFault_spelling, Option.or_eq_none_iff, firstFault_bracket, hf] at h
    cases h.2

/-- What stands behind a token counts for it only if the token closes an alternation. -/
theorem Token.fault_eq_none {t : Token} (h : t.fault inWord before next = none) :
    t.fault inWord before none = none := by
  unfold Token.fault at h ⊢
  split
  · next ho => rwa [if_pos ho] at h
  · next ho =>
    rw [if_neg ho] at h
    split
    · rfl
    · next hc => rwa [if_neg hc] at h

theorem rowFault_at_end (h : rowFault inWord before ts next = none) :
    rowFault inWord before ts none = none := by
  induction ts generalizing inWord before with
  | nil => rfl
  | cons t ts ih =>
      rw [rowFault, Option.or_eq_none_iff] at h
      rw [rowFault, Option.or_eq_none_iff]
      refine ⟨?_, ih h.2⟩
      cases hts : (spelling ts).head? with
      | none => exact Token.fault_eq_none h.1
      | some b =>
          rw [hts] at h
          exact h.1

theorem rowFault_append (ts us : List Token) (next : Option UInt8) :
    rowFault inWord before (ts ++ us) next =
      (rowFault inWord before ts ((spelling us).head?.or next)).or
        (rowFault (isOpenAfter inWord ts) (lastByte before ts) us next) := by
  induction ts generalizing inWord before with
  | nil => rfl
  | cons t ts ih =>
      rw [List.cons_append, rowFault, ih, rowFault, spelling_append, List.head?_append,
        Option.or_assoc, Option.or_assoc]
      rfl

/-- A fault lies at the first token that has one. -/
theorem exists_of_rowFault (h : rowFault inWord before ts next = some fault) :
    ∃ pre t post, ts = pre ++ t :: post ∧ rowFault inWord before pre t.spelling.head? = none ∧
      t.fault (isOpenAfter inWord pre) (lastByte before pre) ((spelling post).head?.or next) =
        some fault := by
  induction ts generalizing inWord before with
  | nil => cases h
  | cons t ts ih =>
      rw [rowFault, Option.or_eq_some_iff] at h
      obtain h | ⟨ht, h⟩ := h
      · exact ⟨[], t, ts, rfl, rfl, h⟩
      · obtain ⟨pre, u, post, rfl, hpre, hu⟩ := ih h
        refine ⟨t :: pre, u, post, rfl, ?_, hu⟩
        rw [rowFault, Option.or_eq_none_iff]
        refine ⟨?_, hpre⟩
        have hne : u.spelling ≠ [] := List.ne_nil_of_length_pos u.length_spelling_pos
        rwa [spelling_append, spelling_cons, List.head?_append, List.head?_append_of_ne_nil _ hne,
          Option.or_assoc, Option.or_of_isSome (List.isSome_head?.mpr hne)] at ht

/-- Where an alternation is open, the brace that opens it. -/
theorem exists_opening (hf : rowFault inWord before ts next = none)
    (h : isOpenAfter inWord ts = true) :
    (inWord = true ∧ ∀ t ∈ ts, t.isBare (byte '{') = false ∧ t.isBare (byte '}') = false) ∨
      ∃ pre t w, ts = pre ++ t :: w ∧ t.isBare (byte '{') = true ∧ isOpenAfter inWord pre = false ∧
        ∀ t ∈ w, t.isBare (byte '{') = false ∧ t.isBare (byte '}') = false := by
  induction ts generalizing inWord before with
  | nil => exact .inl ⟨h, nofun⟩
  | cons t ts ih =>
      rw [rowFault, Option.or_eq_none_iff] at hf
      obtain ⟨hw, hts⟩ | ⟨pre, u, w, rfl, hu, hpre, hw⟩ := ih hf.2 h
      · by_cases ho : t.isBare (byte '{') = true
        · refine .inr ⟨[], t, ts, rfl, ho, ?_, hts⟩
          have := hf.1
          rw [Token.fault, if_pos ho] at this
          cases inWord with
          | true => cases this
          | false => rfl
        · rw [Bool.not_eq_true] at ho
          by_cases hc : t.isBare (byte '}') = true
          · rw [Token.opens_of_closing hc] at hw
            cases hw
          · rw [Bool.not_eq_true] at hc
            rw [Token.opens_of_neither ho hc] at hw
            exact .inl ⟨hw, List.forall_mem_cons.mpr ⟨⟨ho, hc⟩, hts⟩⟩
      · exact .inr ⟨t :: pre, u, w, rfl, hu, hpre, hw⟩

end

/-! ### Refusals -/

/-- The refusal says that what is written can never match. -/
def Malformed.saysNever : Malformed → Bool
  | .beforeWord _ | .afterWord _ | .spaceInWord => true
  | .unclosedClass | .unclosedWord | .nestedWord => false

/-- What a pattern looks like that is refused because it can never match. -/
inductive Refused : List UInt8 → Malformed → Prop where
  | before {pre rest c} (hf : rowFault false none pre (some (byte '{')) = none)
      (ho : isOpenAfter false pre = false) (hb : lastByte none pre = some c)
      (hc : mayPrecedeWord c = false) :
      Refused (spelling pre ++ byte '{' :: rest) (.beforeWord c)
  | after {pre rest c} (hf : rowFault false none pre none = none) (hc : mayFollowWord c = false) :
      Refused (spelling pre ++ byte '}' :: c :: rest) (.afterWord c)
  | space {pre rest} (hf : rowFault false none pre none = none)
      (ho : isOpenAfter false pre = true) :
      Refused (spelling pre ++ byte ' ' :: rest) .spaceInWord

section

variable {pattern rest : List UInt8} {fault : Malformed} {pre : List Token} {t : Token}

theorem Refused.of_fault (hn : fault.saysNever = true)
    (hf : rowFault false none pre t.spelling.head? = none)
    (ht : t.fault (isOpenAfter false pre) (lastByte none pre) rest.head? = some fault) :
    Refused (spelling pre ++ (t.spelling ++ rest)) fault := by
  unfold Token.fault at ht
  split at ht
  · next ho =>
    rw [Token.spelling_of_isBare ho] at hf ⊢
    split at ht
    · cases ht
      cases hn
    · next hw =>
      obtain ⟨c, hc, rfl⟩ := Option.map_eq_some_iff.mp ht
      obtain ⟨hb, hc⟩ := Option.filter_eq_some_iff.mp hc
      exact .before hf (Bool.not_eq_true _ ▸ hw) hb (Bool.not_eq_true' _ ▸ hc)
  · split at ht
    · next hb =>
      rw [Token.spelling_of_isBare hb]
      obtain ⟨c, hc, rfl⟩ := Option.map_eq_some_iff.mp ht
      obtain ⟨hr, hnot⟩ := Option.filter_eq_some_iff.mp hc
      obtain ⟨more, rfl⟩ := List.head?_eq_some_iff.mp hr
      exact .after (rowFault_at_end hf) (Bool.not_eq_true' _ ▸ hnot)
    · split at ht
      · next hs =>
        rw [Bool.and_eq_true] at hs
        rw [Token.spelling_of_isBare hs.1]
        cases ht
        exact .space (rowFault_at_end hf) hs.2
      · cases ht

theorem refused_of_check (h : check pattern = some fault) (hn : fault.saysNever = true) :
    Refused pattern fault := by
  obtain ⟨ts, rest, rfl, hr⟩ := exists_tokens pattern
  rw [check, firstFault_spelling, Option.or_eq_some_iff] at h
  obtain h | ⟨-, h⟩ := h
  · obtain ⟨pre, t, post, rfl, hpre, ht⟩ := exists_of_rowFault h
    rw [← List.head?_append] at ht
    rw [spelling_append, spelling_cons, List.append_assoc, List.append_assoc]
    exact .of_fault hn hpre ht
  · -- What is left behind the tokens has other faults.
    have hend (inWord : Bool) : (if inWord then some .unclosedWord else none) ≠ some fault := by
      cases inWord
      · nofun
      · rintro ⟨⟩
        cases hn
    obtain rfl | rfl | ⟨more, rfl, hf⟩ := hr
    · rw [firstFault_nil] at h
      exact absurd h (hend _)
    · rw [firstFault_backslash, List.drop_nil, firstFault_nil] at h
      exact absurd h (hend _)
    · rw [firstFault_bracket, hf] at h
      cases h
      cases hn

end

end ExprEngine.Glob
