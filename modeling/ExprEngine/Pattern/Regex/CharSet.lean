import ExprEngine.Text.WordChar
import ExprEngine.Text.CaseFold
import ExprEngine.Text.Blank

/-!
# Sets of characters

A set is kept as its ranges in ascending order, with a gap between any two, so that equal sets are
equal as values.  Caseless matching is a set operation: the folded set holds every character that
differs from a member in case only.

* `contains_single`: the set of one character holds that character alone.
* `contains_space`: the white space of an expression is the white space of the text modules.
-/

namespace ExprEngine.Regex

/-- A set of characters, as ranges of code points with both ends included. -/
structure CharSet where
  ranges : List (Nat × Nat)
deriving DecidableEq

namespace CharSet

/-- The code point belongs to the set. -/
def contains (s : CharSet) (n : Nat) : Bool :=
  s.ranges.any fun (lo, hi) => lo ≤ n && n ≤ hi

/-- A range and those that start behind its start, in ascending order, with all that touch
joined. -/
def joinFrom (lo hi : Nat) : List (Nat × Nat) → List (Nat × Nat)
  | [] => [(lo, hi)]
  | (lo', hi') :: rest =>
    if lo' ≤ hi + 1 then joinFrom lo (max hi hi') rest else (lo, hi) :: joinFrom lo' hi' rest

/-- Ranges in the order of their starts, with all that touch joined. -/
def join : List (Nat × Nat) → List (Nat × Nat)
  | [] => []
  | (lo, hi) :: rest => joinFrom lo hi rest

/-- The set of the code points in some ranges. -/
def ofRanges (rs : List (Nat × Nat)) : CharSet :=
  ⟨join (rs.mergeSort fun a b => a.1 ≤ b.1)⟩

/-- The empty set. -/
def empty : CharSet := ⟨[]⟩

/-- The set of one character. -/
def single (c : Char) : CharSet := ⟨[(c.toNat, c.toNat)]⟩

/-- The members of either set. -/
def union (a b : CharSet) : CharSet :=
  ⟨join (a.ranges.merge b.ranges fun x y => x.1 ≤ y.1)⟩

/-- The code points from `next` on that ascending ranges leave out. -/
def gaps (next : Nat) : List (Nat × Nat) → List (Nat × Nat)
  | [] => if next ≤ 0x10FFFF then [(next, 0x10FFFF)] else []
  | (lo, hi) :: rest =>
    if next < lo then (next, lo - 1) :: gaps (hi + 1) rest else gaps (hi + 1) rest

/-- The characters outside the set.  The surrogates between `D800` and `DFFF` are no characters. -/
def compl (s : CharSet) : CharSet :=
  ⟨gaps 0 (union ⟨[(0xD800, 0xDFFF)]⟩ s).ranges⟩

/-- The members of both sets. -/
def inter (a b : CharSet) : CharSet :=
  (a.compl.union b.compl).compl

/-- The set of all characters. -/
def any : CharSet := empty.compl

/-- The characters between two. -/
def range (first last : Char) : CharSet :=
  (ofRanges [(first.toNat, last.toNat)]).compl.compl

/-- The word characters of Unicode. -/
def word : CharSet :=
  ofRanges ([(48, 57), (65, 90), (95, 95), (97, 122)] ++ Text.wordRanges.toList)

/-- The decimal digits of Unicode. -/
def digit : CharSet :=
  ofRanges ((48, 57) :: Text.digitRanges.toList)

/-- The white space of Unicode. -/
def space : CharSet :=
  ⟨[(0x09, 0x0D), (0x20, 0x20), (0x85, 0x85), (0xA0, 0xA0), (0x1680, 0x1680), (0x2000, 0x200A),
    (0x2028, 0x2029), (0x202F, 0x202F), (0x205F, 0x205F), (0x3000, 0x3000)]⟩

/-- The set with all that differs from a member in case only. -/
def folded (s : CharSet) : CharSet :=
  s.union (ofRanges ((Text.caseVariants s.contains).map fun n => (n, n)))

theorem contains_single (c d : Char) : (single c).contains d.toNat = (d == c) := by
  rw [Bool.eq_iff_iff]
  simp only [single, contains, List.any_cons, List.any_nil, Bool.or_false, Bool.and_eq_true,
    decide_eq_true_eq, beq_iff_eq]
  exact ⟨fun h => Char.toNat_inj.1 (Nat.le_antisymm h.2 h.1), fun h => by simp [h]⟩

theorem contains_space (c : Char) : space.contains c.toNat = Text.isSpace c := by
  rw [Bool.eq_iff_iff]
  simp only [space, contains, Text.isSpace, List.any_cons, List.any_nil, Bool.or_false,
    Bool.and_eq_true, Bool.or_eq_true, decide_eq_true_eq, beq_iff_eq]
  omega

end CharSet

end ExprEngine.Regex
