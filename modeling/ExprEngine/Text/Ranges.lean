/-!
# Sets of characters as ranges

A character property is a table of ranges of code points, each with both ends in it.
-/

namespace ExprEngine.Text

/-- The code points of some ranges, both ends included. -/
abbrev Ranges := Array (Nat × Nat)

/-- The code point lies in one of the ranges. -/
def Ranges.contains (rs : Ranges) (n : Nat) : Bool :=
  rs.any fun (lo, hi) => lo ≤ n && n ≤ hi

end ExprEngine.Text
