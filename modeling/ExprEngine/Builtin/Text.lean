import ExprEngine.Text.Position

/-!
# Functions on texts

What the built-in functions do with the characters of a text.  Positions count characters from zero;
a negative one counts back from the end, and one beyond either end means the end.

Main statements: a position is never beyond the end (`position_le`), and a negative one is the same
as the one that it counts back to (`position_neg`).
-/

namespace ExprEngine.Builtin

/-- The position that a number stands for, if `last` is the greatest. -/
def position (n : Int) (last : Nat) : Nat :=
  if n < 0 then (last + n).toNat else min n.toNat last

theorem position_le (n : Int) (last : Nat) : position n last ≤ last := by
  unfold position
  split <;> omega

theorem position_neg {k last : Nat} (hk : 0 < k) (h : k ≤ last) :
    position (-k) last = position (last - k : Nat) last := by
  unfold position
  rw [if_pos (by omega), if_neg (by omega)]
  omega

/-- The index of the first character that `p` holds of, from `start` on. -/
def firstIndex? (p : Char → Bool) (start : Nat) (cs : List Char) : Option Nat :=
  ((cs.drop start).findIdx? p).map (· + start)

/-- The index of the last character that `p` holds of, up to `stop`. -/
def lastIndex? (p : Char → Bool) (stop : Nat) (cs : List Char) : Option Nat :=
  let upTo := cs.take (stop + 1)
  (upTo.reverse.findIdx? p).map (upTo.length - 1 - ·)

/-- The index of the first place from `start` on where `needle` stands. -/
def firstPlace? (needle : List Char) (start : Nat) (cs : List Char) : Option Nat :=
  Text.find? needle (cs.drop start) start

/-- The text with its first `n` characters changed. -/
def mapFirst (f : Char → Char) (n : Nat) (cs : List Char) : List Char :=
  (cs.take n).map f ++ cs.drop n

/-- Greatest number of characters in a text that is built from counts. -/
abbrev greatestLength : Nat := 0x1000000

/-- Number of characters in the field of a text. -/
def fieldLength (cs : List Char) (width : Int) : Nat :=
  max cs.length width.natAbs

/-- The field of a text: filled up with blanks to its width, in front if the width is positive. -/
def field (cs : List Char) (width : Int) : List Char :=
  let fill := List.replicate (width.natAbs - cs.length) ' '
  if 0 < width then fill ++ cs else cs ++ fill

theorem length_field (cs : List Char) (width : Int) :
    (field cs width).length = fieldLength cs width := by
  unfold field fieldLength
  split <;> simp only [List.length_append, List.length_replicate] <;> omega

/-- So many copies of a text, one behind the other. -/
def copies (n : Nat) (cs : List Char) : List Char :=
  if cs.isEmpty then [] else (List.replicate n cs).flatten

/-- The character of a code, or of its last eight bits if no character has it. -/
def charOfCode (code : Int) : Char :=
  if 0 ≤ code ∧ code.toNat.isValidChar then Char.ofNat code.toNat else Char.ofNat (code % 256).toNat

end ExprEngine.Builtin
