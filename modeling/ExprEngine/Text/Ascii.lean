/-!
# ASCII character classes

The language reads its sources, numbers and directives with ASCII classes only: a character outside
ASCII is neither blank, nor a digit, nor part of a word.  Core's `Char.isDigit`, `Char.isAlpha` and
`Char.toLower` are the ASCII ones and are used as they are; this module adds the classes that core
lacks, and the byte classes of the glob matcher.
-/

namespace ExprEngine.Ascii

/-- Space, tab, line feed, form feed and carriage return. -/
def isBlank (c : Char) : Bool :=
  c == ' ' || c == '\t' || c == '\n' || c == '\x0c' || c == '\r'

/-- A letter, a digit or an underscore: what an identifier is made of. -/
def isWord (c : Char) : Bool :=
  c.isAlphanum || c == '_'

/-- What an identifier may start with. -/
def isWordStart (c : Char) : Bool :=
  c.isAlpha || c == '_'

/-- The three quotes that open a string literal. -/
def isQuote (c : Char) : Bool :=
  c == '"' || c == '\'' || c == '`'

/-- A byte with the letters `A` to `Z` folded to lower case. -/
def lower (b : UInt8) : UInt8 :=
  if 65 ≤ b ∧ b ≤ 90 then b + 32 else b

/-- Two bytes that differ at most in the case of an ASCII letter. -/
def sameLetter (a b : UInt8) : Bool :=
  lower a == lower b

/-- The words equal up to the case of ASCII letters. -/
def sameWord (a b : String) : Bool :=
  a.toList.map Char.toLower == b.toList.map Char.toLower

/-- The byte is the number of an ASCII letter. -/
def isLetter (b : UInt8) : Bool :=
  65 ≤ b && b ≤ 90 || 97 ≤ b && b ≤ 122

theorem lower_eq_iff {b c : UInt8} (h : isLetter c = false) : lower b = c ↔ b = c := by
  simp only [isLetter, Bool.or_eq_false_iff, Bool.and_eq_false_iff, decide_eq_false_iff_not,
    UInt8.le_iff_toNat_le, UInt8.reduceToNat] at h
  unfold lower
  split
  · next hb =>
    simp only [← UInt8.toNat_inj, UInt8.le_iff_toNat_le, UInt8.toNat_add, UInt8.reduceToNat] at *
    omega
  · rfl

theorem lower_eq_self {c : UInt8} (h : isLetter c = false) : lower c = c :=
  (lower_eq_iff h).mpr rfl

theorem lower_lower (b : UInt8) : lower (lower b) = lower b := by
  unfold lower
  split
  · next hb =>
    simp only [← UInt8.toNat_inj, UInt8.le_iff_toNat_le, UInt8.toNat_add, UInt8.reduceToNat] at *
    rw [if_neg (by omega), UInt8.toNat_add]
    rfl
  · rfl

theorem sameLetter_comm (b c : UInt8) : sameLetter b c = sameLetter c b :=
  BEq.comm

theorem sameLetter_iff {b c : UInt8} (h : isLetter c = false) :
    sameLetter b c = true ↔ b = c := by
  rw [sameLetter, beq_iff_eq, lower_eq_self h, lower_eq_iff h]

theorem toNat_of_isAlpha {c : Char} (h : c.isAlpha = true) : 65 ≤ c.toNat ∧ c.toNat ≤ 122 := by
  delta Char.isAlpha Char.isUpper Char.isLower at h
  simp only [Bool.or_eq_true, Bool.and_eq_true, decide_eq_true_eq, GE.ge,
    UInt32.le_iff_toNat_le] at h
  rcases h with h | h
  · exact ⟨h.1, Nat.le_trans h.2 (by decide)⟩
  · exact ⟨Nat.le_trans (by decide) h.1, h.2⟩

theorem toNat_of_isDigit {c : Char} (h : c.isDigit = true) : 48 ≤ c.toNat ∧ c.toNat ≤ 57 := by
  simp only [Char.isDigit, Bool.and_eq_true, decide_eq_true_eq, GE.ge, UInt32.le_iff_toNat_le] at h
  exact h

theorem isWord_of_isWordStart {c : Char} (h : isWordStart c = true) : isWord c = true := by
  simp only [isWordStart, isWord, Char.isAlphanum, Bool.or_eq_true] at h ⊢
  rcases h with h | h
  · exact .inl (.inl h)
  · exact .inr h

end ExprEngine.Ascii
