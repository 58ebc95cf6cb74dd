import ExprEngine.Proofs.Pattern.Glyphs
import Mathlib.Data.List.Forall2

/-!
# Tokens of globs

What the matcher takes at once: a star, a question mark, a class, or a glyph that stands for itself.
The braces and the bar of an alternation are glyphs like others here.  A pattern is the spelling of
its tokens, and of no other ones.

* `exists_token`, `exists_tokens`: every pattern is a row of tokens, up to a class that is not
  closed or the backslash that is left over at the end.
* `spelling_injective`: a pattern has one reading.
* `Splits`: a text falls into parts that the tokens take, one each.
-/

namespace ExprEngine.Glob

open Glyph

/-- The glyph is neither a wildcard nor the start of a class. -/
def Glyph.isPlain (g : Glyph) : Bool :=
  !(g.isBare (byte '*') || g.isBare (byte '?') || g.isBare (byte '['))

theorem Glyph.eq_mark_or_isPlain (g : Glyph) :
    g = mark '*' (by decide) ∨ g = mark '?' (by decide) ∨ g = mark '[' (by decide) ∨
      g.isPlain = true := by
  by_cases hs : g.isBare (byte '*') = true
  · exact .inl (eq_mark (by decide) hs)
  by_cases ha : g.isBare (byte '?') = true
  · exact .inr (.inl (eq_mark (by decide) ha))
  by_cases hc : g.isBare (byte '[') = true
  · exact .inr (.inr (.inl (eq_mark (by decide) hc)))
  · exact .inr (.inr (.inr (by simp [isPlain, hs, ha, hc])))

/-- A token of a pattern. -/
inductive Token where
  | star
  | any
  | ofClass (body : List Glyph) (closed : ∀ g ∈ body, g.isBare (byte ']') = false)
  | lit (g : Glyph) (plain : g.isPlain = true)
deriving DecidableEq

namespace Token

/-- The glyphs that are written. -/
def glyphs : Token → List Glyph
  | star => [mark '*' (by decide)]
  | any => [mark '?' (by decide)]
  | ofClass body _ => mark '[' (by decide) :: (body ++ [mark ']' (by decide)])
  | lit g _ => [g]

/-- The bytes that are written. -/
def spelling (t : Token) : List UInt8 :=
  spelled t.glyphs

@[simp] theorem spelling_star : star.spelling = [byte '*'] := rfl

@[simp] theorem spelling_any : any.spelling = [byte '?'] := rfl

@[simp] theorem spelling_ofClass (body : List Glyph)
    (closed : ∀ g ∈ body, g.isBare (byte ']') = false) :
    (ofClass body closed).spelling = byte '[' :: (spelled body ++ [byte ']']) := by
  simp [spelling, glyphs]

@[simp] theorem spelling_lit (g : Glyph) (plain : g.isPlain = true) :
    (lit g plain).spelling = g.spelling := by
  simp [spelling, glyphs]

/-- The token is the byte `c`, which no backslash escapes. -/
def isBare (c : UInt8) : Token → Bool
  | lit g _ => g.isBare c
  | _ => false

theorem spelling_of_isBare {t : Token} {c : UInt8} (h : t.isBare c = true) :
    t.spelling = [c] := by
  cases t with
  | lit g plain => rw [spelling_lit, Glyph.spelling_of_isBare h]
  | _ => cases h

theorem length_spelling_pos (t : Token) : 0 < t.spelling.length := by
  cases t with
  | lit g plain =>
      rw [spelling_lit]
      exact List.length_pos_iff.mpr g.spelling_ne_nil
  | _ => simp

end Token

/-- The token is a star or a question mark. -/
def Token.isWild : Token → Bool
  | .star | .any => true
  | _ => false

theorem ne_star {tok : Token} (h : tok.isWild = false) : tok ≠ .star := by
  rintro rfl
  cases h

theorem head?_of_not_wild {tok : Token} (h : tok.isWild = false) (cs : List UInt8) :
    (tok.spelling ++ cs).head? ≠ some (byte '*') ∧
      (tok.spelling ++ cs).head? ≠ some (byte '?') := by
  cases tok with
  | star | any => cases h
  | ofClass body closed => exact ⟨by simp; decide, by simp; decide⟩
  | lit g plain =>
      rw [Token.spelling_lit, Ne, Ne, head?_spelling (by decide), head?_spelling (by decide)]
      simp only [isPlain, Bool.not_eq_true', Bool.or_eq_false_iff] at plain
      simp [plain]

/-- The glyphs of a row of tokens. -/
def glyphs (ts : List Token) : List Glyph :=
  ts.flatMap Token.glyphs

@[simp] theorem glyphs_cons (t : Token) (ts : List Token) :
    glyphs (t :: ts) = t.glyphs ++ glyphs ts :=
  List.flatMap_cons

@[simp] theorem glyphs_append (ts us : List Token) : glyphs (ts ++ us) = glyphs ts ++ glyphs us :=
  List.flatMap_append

/-- The bytes of a row of tokens. -/
def spelling (ts : List Token) : List UInt8 :=
  spelled (glyphs ts)

@[simp] theorem spelling_nil : spelling [] = [] := rfl

@[simp] theorem spelling_cons (t : Token) (ts : List Token) :
    spelling (t :: ts) = t.spelling ++ spelling ts := by
  simp [spelling, Token.spelling]

@[simp] theorem spelling_append (ts us : List Token) :
    spelling (ts ++ us) = spelling ts ++ spelling us := by
  simp [spelling]

/-! ### Reading -/

variable {ts : List Token} {cs ds : List UInt8}

theorem exists_token (cs : List UInt8) :
    cs = [] ∨ cs = [byte '\\'] ∨
      (∃ rest, cs = byte '[' :: rest ∧ findUnescaped? (byte ']') cs = none) ∨
      ∃ t : Token, ∃ rest, cs = t.spelling ++ rest := by
  obtain rfl | rfl | ⟨g, rest, rfl⟩ := exists_glyph cs
  · exact .inl rfl
  · exact .inr (.inl rfl)
  refine .inr (.inr ?_)
  obtain rfl | rfl | rfl | plain := g.eq_mark_or_isPlain
  · exact .inr ⟨.star, rest, rfl⟩
  · exact .inr ⟨.any, rest, rfl⟩
  · rw [spelling_mark, List.singleton_append]
    have hf : findUnescaped? (byte ']') (byte '[' :: rest) =
        (findUnescaped? (byte ']') rest).map (· + 1) :=
      findUnescaped?_spelling (by decide) (mark '[' (by decide)) rest
    cases hr : findUnescaped? (byte ']') rest with
    | none => exact .inl ⟨rest, rfl, by rw [hf, hr]; rfl⟩
    | some n =>
        obtain ⟨body, more, closed, rfl⟩ := exists_of_findUnescaped? (by decide) hr
        exact .inr ⟨.ofClass body closed, more, by simp⟩
  · exact .inr ⟨.lit g plain, rest, by rw [Token.spelling_lit]⟩

/-- A pattern is the spelling of tokens, up to a class that is not closed or a backslash that is
left over. -/
theorem exists_tokens (cs : List UInt8) :
    ∃ ts rest, cs = spelling ts ++ rest ∧
      (rest = [] ∨ rest = [byte '\\'] ∨
        ∃ more, rest = byte '[' :: more ∧ findUnescaped? (byte ']') rest = none) := by
  induction hn : cs.length using Nat.strongRecOn generalizing cs with
  | ind n ih =>
      subst hn
      obtain h | h | ⟨more, hm, hf⟩ | ⟨t, more, rfl⟩ := exists_token cs
      · exact ⟨[], cs, rfl, .inl h⟩
      · exact ⟨[], cs, rfl, .inr (.inl h)⟩
      · exact ⟨[], cs, rfl, .inr (.inr ⟨more, hm, hf⟩)⟩
      · have hlt : more.length < (t.spelling ++ more).length := by
          rw [List.length_append]
          exact Nat.lt_add_of_pos_left t.length_spelling_pos
        obtain ⟨ts, rest, rfl, hr⟩ := ih _ hlt more rfl
        exact ⟨t :: ts, rest, by rw [spelling_cons, List.append_assoc], hr⟩

theorem glyph_of_append {g h : Glyph} (he : g.spelling ++ cs = h.spelling ++ ds) :
    g = h ∧ cs = ds := by
  cases g with
  | bare b hb =>
      cases h with
      | bare c hc => simpa [Glyph.spelling] using he
      | escaped c => exact absurd (List.cons.inj he).1 hb
  | escaped b =>
      cases h with
      | bare c hc => exact absurd (List.cons.inj he).1.symm hc
      | escaped c => simpa [Glyph.spelling] using he

/-- A row of glyphs ends where the first bare `c` stands. -/
theorem glyphs_of_append {c : UInt8} {gs hs : List Glyph} (hc : c ≠ byte '\\')
    (hg : ∀ g ∈ gs, g.isBare c = false) (hh : ∀ g ∈ hs, g.isBare c = false)
    (he : spelled gs ++ c :: cs = spelled hs ++ c :: ds) : gs = hs ∧ cs = ds := by
  have clash : ∀ {g : Glyph} {us vs : List UInt8}, g.isBare c = false →
      g.spelling ++ us ≠ c :: vs := fun hgc he => by
    rw [(glyph_of_append (h := .bare c hc) he).1, isBare, beq_self_eq_true] at hgc
    cases hgc
  induction gs generalizing hs with
  | nil =>
      cases hs with
      | nil => exact ⟨rfl, (List.cons.inj he).2⟩
      | cons h hs =>
          rw [spelled_cons, List.append_assoc] at he
          exact absurd he.symm (clash (hh h List.mem_cons_self))
  | cons g gs ih =>
      rw [List.forall_mem_cons] at hg
      rw [spelled_cons, List.append_assoc] at he
      cases hs with
      | nil => exact absurd he (clash hg.1)
      | cons h hs =>
          rw [List.forall_mem_cons] at hh
          rw [spelled_cons, List.append_assoc] at he
          obtain ⟨rfl, hr⟩ := glyph_of_append he
          obtain ⟨rfl, hd⟩ := ih hg.2 hh.2 hr
          exact ⟨rfl, hd⟩

/-- The first glyph of a token. -/
def Token.first : Token → Glyph
  | star => mark '*' (by decide)
  | any => mark '?' (by decide)
  | ofClass _ _ => mark '[' (by decide)
  | lit g _ => g

theorem Token.spelling_eq_first (t : Token) (cs : List UInt8) :
    ∃ rest, t.spelling ++ cs = t.first.spelling ++ rest := by
  cases t with
  | ofClass body closed => exact ⟨spelled body ++ byte ']' :: cs, by simp [first]⟩
  | lit g plain => exact ⟨cs, by rw [spelling_lit, first]⟩
  | _ => exact ⟨cs, rfl⟩

theorem token_of_append {t u : Token} (he : t.spelling ++ cs = u.spelling ++ ds) :
    t = u ∧ cs = ds := by
  have hf : t.first = u.first := by
    obtain ⟨_, ht⟩ := t.spelling_eq_first cs
    obtain ⟨_, hu⟩ := u.spelling_eq_first ds
    rw [ht, hu] at he
    exact (glyph_of_append he).1
  cases t with
  | star =>
      cases u with
      | star => simpa using he
      | any | ofClass => cases hf
      | lit g plain => cases hf; cases plain
  | any =>
      cases u with
      | any => simpa using he
      | star | ofClass => cases hf
      | lit g plain => cases hf; cases plain
  | ofClass body closed =>
      cases u with
      | ofClass body' closed' =>
          simp only [Token.spelling_ofClass, List.cons_append, List.append_assoc,
            List.cons.injEq, true_and, List.nil_append] at he
          obtain ⟨rfl, rfl⟩ := glyphs_of_append (by decide) closed closed' he
          exact ⟨rfl, rfl⟩
      | star | any => cases hf
      | lit g plain => cases hf; cases plain
  | lit g plain =>
      cases u with
      | lit h plain' =>
          simp only [Token.spelling_lit] at he
          obtain ⟨rfl, rfl⟩ := glyph_of_append he
          exact ⟨rfl, rfl⟩
      | star | any | ofClass => cases hf; cases plain

/-- A pattern has one reading. -/
theorem spelling_injective : Function.Injective spelling := by
  intro ts us he
  induction ts generalizing us with
  | nil =>
      cases us with
      | nil => rfl
      | cons u us =>
          have := u.length_spelling_pos
          rw [spelling_cons] at he
          simp [List.append_eq_nil_iff.mp he.symm] at this
  | cons t ts ih =>
      cases us with
      | nil =>
          have := t.length_spelling_pos
          rw [spelling_cons] at he
          simp [List.append_eq_nil_iff.mp he] at this
      | cons u us =>
          rw [spelling_cons, spelling_cons] at he
          obtain ⟨rfl, hr⟩ := token_of_append he
          rw [ih hr]

/-! ### Splitting a text along the tokens -/

namespace Token

/-- The token, which is no star, takes this byte.  Inside an alternation only a token that stands
for itself takes a space. -/
def takesByte (t : Token) (inWord : Bool) (c : UInt8) : Bool :=
  match t with
  | star => false
  | any => !(inWord && c == byte ' ')
  | ofClass body _ => !(inWord && c == byte ' ') && inClass body c
  | lit g _ => Ascii.sameLetter c g.val

/-- The token takes this part of a text: a star any run, without spaces inside an alternation, and
the others one byte. -/
def Takes (inWord : Bool) (t : Token) (part : List UInt8) : Prop :=
  match t with
  | star => inWord = true → byte ' ' ∉ part
  | t => ∃ c, part = [c] ∧ t.takesByte inWord c = true

theorem takes_iff {t : Token} (h : t ≠ star) {inWord : Bool} {part : List UInt8} :
    t.Takes inWord part ↔ ∃ c, part = [c] ∧ t.takesByte inWord c = true := by
  cases t with
  | star => exact absurd rfl h
  | _ => exact Iff.rfl

end Token

/-- The text falls into parts that the tokens take, one each. -/
def Splits (inWord : Bool) (ts : List Token) (text : List UInt8) : Prop :=
  ∃ parts : List (List UInt8), parts.flatten = text ∧ List.Forall₂ (Token.Takes inWord) ts parts

section

variable {inWord : Bool} {text : List UInt8}

theorem splits_nil : Splits inWord [] text ↔ text = [] := by
  constructor
  · rintro ⟨parts, rfl, h⟩
    rw [List.forall₂_nil_left_iff.mp h, List.flatten_nil]
  · rintro rfl
    exact ⟨[], rfl, .nil⟩

theorem splits_cons {t : Token} :
    Splits inWord (t :: ts) text ↔
      ∃ part left, text = part ++ left ∧ t.Takes inWord part ∧ Splits inWord ts left := by
  constructor
  · rintro ⟨parts, rfl, h⟩
    obtain ⟨part, parts, ht, hts, rfl⟩ := List.forall₂_cons_left_iff.mp h
    exact ⟨part, parts.flatten, List.flatten_cons, ht, parts, rfl, hts⟩
  · rintro ⟨part, left, rfl, ht, parts, rfl, hts⟩
    exact ⟨part :: parts, List.flatten_cons, .cons ht hts⟩

theorem splits_byte {t : Token} (h : t ≠ .star) :
    Splits inWord (t :: ts) text ↔
      ∃ c left, text = c :: left ∧ t.takesByte inWord c = true ∧ Splits inWord ts left := by
  rw [splits_cons]
  constructor
  · rintro ⟨part, left, rfl, ht, hts⟩
    obtain ⟨c, rfl, hc⟩ := (Token.takes_iff h).mp ht
    exact ⟨c, left, rfl, hc, hts⟩
  · rintro ⟨c, left, rfl, hc, hts⟩
    exact ⟨[c], left, rfl, (Token.takes_iff h).mpr ⟨c, rfl, hc⟩, hts⟩

/-- Where there is no space, tokens take inside an alternation what they take outside. -/
theorem splits_of_no_space (h : byte ' ' ∉ text) : Splits true ts text ↔ Splits false ts text := by
  induction ts generalizing text with
  | nil => rw [splits_nil, splits_nil]
  | cons t ts ih =>
      simp only [splits_cons]
      refine exists_congr fun part => exists_congr fun left => and_congr_right ?_
      rintro rfl
      rw [List.mem_append, not_or] at h
      refine and_congr ?_ (ih h.2)
      cases t with
      | star => simp [Token.Takes, h.1]
      | _ =>
          simp only [Token.Takes]
          refine exists_congr fun c => and_congr_right ?_
          rintro rfl
          have hne : c ≠ byte ' ' := fun he => h.1 (he ▸ List.mem_singleton_self c)
          simp [Token.takesByte, beq_eq_false_iff_ne.mpr hne]

end

end ExprEngine.Glob
