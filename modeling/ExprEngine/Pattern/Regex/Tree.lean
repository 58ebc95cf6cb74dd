import ExprEngine.Pattern.Regex.CharSet

/-!
# Regular expressions as trees

The expressions over sets of characters.  Concatenations and alternations nest to the right, and
their parts are read off as lists (`Tree.items`, `Tree.branches`).
-/

namespace ExprEngine.Regex

/-- A condition on a place between two characters. -/
inductive Look where
  | textStart
  | textEnd
  | lineStart
  | lineEnd
  | boundary
  | noBoundary
  | wordStart
  | wordEnd
  | noWordBefore
  | noWordAfter
deriving DecidableEq

/-- The condition holds between the character before and the character after, where there are
any. -/
def Look.holds (l : Look) (before after : Option Char) : Bool :=
  let inWord (c : Option Char) := c.any Text.isWordChar
  match l with
  | .textStart => before.isNone
  | .textEnd => after.isNone
  | .lineStart => before.isNone || before == some '\n'
  | .lineEnd => after.isNone || after == some '\n'
  | .boundary => inWord before != inWord after
  | .noBoundary => inWord before == inWord after
  | .wordStart => !inWord before && inWord after
  | .wordEnd => inWord before && !inWord after
  | .noWordBefore => !inWord before
  | .noWordAfter => !inWord after

/-- A regular expression.  Alternatives and repetitions are in order of preference: the left branch
first, and greedy repetitions go on as long as they can.  A literal has at least one character. -/
inductive Tree where
  | empty
  | literal (cs : List Char)
  | set (s : CharSet)
  | look (l : Look)
  | group (index : Nat) (r : Tree)
  | concat (a b : Tree)
  | alternate (a b : Tree)
  | repeat (r : Tree) (min : Nat) (max : Option Nat) (greedy : Bool)
deriving DecidableEq

namespace Tree

/-- The expression can match without taking a character. -/
def nullable : Tree → Bool
  | empty | look _ => true
  | literal _ | set _ => false
  | group _ r => r.nullable
  | concat a b => a.nullable && b.nullable
  | alternate a b => a.nullable || b.nullable
  | «repeat» r min _ _ => min == 0 || r.nullable

/-- The expression can never take a character. -/
def takesNothing : Tree → Bool
  | empty | look _ => true
  | literal _ | set _ => false
  | group _ r => r.takesNothing
  | concat a b | alternate a b => a.takesNothing && b.takesNothing
  | «repeat» r _ _ _ => r.takesNothing

/-- The number of nodes. -/
def size : Tree → Nat
  | empty | literal _ | set _ | look _ => 1
  | group _ r => r.size + 1
  | concat a b | alternate a b => a.size + b.size + 1
  | «repeat» r _ _ _ => r.size + 1

/-- The pieces that are read one after the other. -/
def items : Tree → List Tree
  | empty => []
  | concat a b => a :: b.items
  | r => [r]

/-- The branches in order of preference. -/
def branches : Tree → List Tree
  | alternate a b => a :: b.branches
  | r => [r]

/-- Pieces one after the other. -/
def ofItems : List Tree → Tree
  | [] => .empty
  | [r] => r
  | r :: rest => .concat r (ofItems rest)

/-- Branches in order of preference, of which no branch at all matches nothing. -/
def ofBranches : List Tree → Tree
  | [] => .set .empty
  | [r] => r
  | r :: rest => .alternate r (ofBranches rest)

end Tree

end ExprEngine.Regex
