import ExprEngine.Pattern.Regex.Tree

/-!
# Normal form of regular expressions

Expressions are built from their parts so that what is written in several ways becomes one tree: a
concatenation in a concatenation and an alternation in an alternation dissolve, characters side by
side are one literal, branches of one character each are one set, and so are branches of one set
each.

An alternation whose branches all begin with the same pieces reads these pieces once and chooses
behind them.  This decides which match is preferred: a choice within the shared pieces is made
before the choice of a branch, so that `a?ab|a?bc` takes all of `abc`.

* `sizes_behind_lt`: what is left behind shared pieces is smaller, so that choosing ends.
-/

namespace ExprEngine.Regex.Tree

/-! ### Sets and concatenations -/

/-- A set as an expression; a set of one character is a literal. -/
def ofSet (s : CharSet) : Tree :=
  match s.ranges with
  | [(lo, hi)] => if lo = hi then .literal [Char.ofNat lo] else .set s
  | _ => .set s

/-- The pieces with literals side by side made one. -/
def joinLiterals : List Tree → List Tree
  | [] => []
  | .literal cs :: rest =>
    match joinLiterals rest with
    | .literal ds :: rest => .literal (cs ++ ds) :: rest
    | rest => .literal cs :: rest
  | r :: rest => r :: joinLiterals rest

/-- Expressions one after the other. -/
def sequence (rs : List Tree) : Tree :=
  ofItems (joinLiterals (rs.flatMap items))

/-! ### Alternations -/

/-- The only character that the expression matches, if it is a literal of one. -/
def char? : Tree → Option Char
  | .literal [c] => some c
  | _ => none

/-- The set that the expression is, if it is one. -/
def set? : Tree → Option CharSet
  | .set s => some s
  | _ => none

/-- The set that branches amount to if each is a single character or each is a set. -/
def unionOf? (bs : List Tree) : Option CharSet :=
  (((bs.mapM char?).map fun cs => cs.map CharSet.single) <|> bs.mapM set?).map fun ss =>
    ss.foldl CharSet.union .empty

/-- What two lists both begin with. -/
def commonStart : List Tree → List Tree → List Tree
  | a :: as, b :: bs => if a = b then a :: commonStart as bs else []
  | _, _ => []

/-- The pieces of a concatenation, of which there are two or more; none for other expressions. -/
def pieces : Tree → List Tree
  | .concat a b => a :: b.items
  | _ => []

/-- The pieces that all branches begin with. -/
def sharedPieces : List Tree → List Tree
  | [] => []
  | [b] => b.pieces
  | b :: bs => commonStart b.pieces (sharedPieces bs)

/-- What is left of a branch behind its first `n` pieces. -/
def rest (n : Nat) (b : Tree) : Tree :=
  ofItems (b.pieces.drop n)

/-- The branches behind the first `n` pieces of each. -/
def behind (n : Nat) (bs : List Tree) : List Tree :=
  (bs.map (rest n)).flatMap branches

/-- The number of nodes in some expressions. -/
def sizes : List Tree → Nat
  | [] => 0
  | r :: rs => r.size + sizes rs

theorem one_le_size (r : Tree) : 1 ≤ r.size := by
  cases r <;> simp [size]

theorem sizes_append (as bs : List Tree) : sizes (as ++ bs) = sizes as + sizes bs := by
  induction as with
  | nil => simp [sizes]
  | cons a as ih => simp [sizes, ih, Nat.add_assoc]

theorem sizes_branches_le (r : Tree) : sizes r.branches ≤ r.size := by
  induction r with
  | alternate a b _ ih => simp only [branches, sizes, size]; omega
  | _ => simp [branches, sizes]

theorem sizes_flatMap_branches_le (rs : List Tree) : sizes (rs.flatMap branches) ≤ sizes rs := by
  induction rs with
  | nil => simp [sizes]
  | cons r rs ih =>
    have := sizes_branches_le r
    simp only [List.flatMap_cons, sizes_append, sizes]; omega

theorem size_ofItems_drop_le (r : Tree) (n : Nat) : (ofItems (r.items.drop n)).size ≤ r.size := by
  induction r generalizing n with
  | concat a b _ ih =>
    cases n with
    | zero =>
      have h := ih 0
      cases hb : b.items with
      | nil => simp only [items, hb, List.drop_zero, ofItems, size]; omega
      | cons c cs =>
        simp only [hb, List.drop_zero] at h
        simp only [items, hb, List.drop_zero, ofItems, size]; omega
    | succ n =>
      have h := ih n
      simp only [items, List.drop_succ_cons, size]; omega
  | empty => simp [items, ofItems]
  | literal _ | set _ | look _ => cases n <;> simp [items, ofItems, size]
  | group _ r _ | «repeat» r _ _ _ _ => cases n <;> simp [items, ofItems, size]
  | alternate a b _ _ => cases n <;> simp [items, ofItems, size]

theorem size_rest_lt {n : Nat} {b : Tree} (hn : 0 < n) (hb : b.pieces ≠ []) :
    (rest n b).size < b.size := by
  cases b with
  | concat a b =>
    obtain ⟨n, rfl⟩ : ∃ m, n = m + 1 := ⟨n - 1, by omega⟩
    have := size_ofItems_drop_le b n
    simp only [rest, pieces, List.drop_succ_cons, size]; omega
  | _ => simp [pieces] at hb

theorem commonStart_nil (as : List Tree) : commonStart as [] = [] := by
  cases as <;> rfl

theorem sizes_rest_lt {n : Nat} {bs : List Tree} (hn : 0 < n) (hbs : sharedPieces bs ≠ []) :
    sizes (bs.map (rest n)) < sizes bs := by
  induction bs with
  | nil => simp [sharedPieces] at hbs
  | cons b bs ih =>
    cases bs with
    | nil =>
      have := size_rest_lt hn hbs
      simpa [sizes] using this
    | cons c bs =>
      have hb : b.pieces ≠ [] := fun h => hbs (by simp [sharedPieces, h, commonStart])
      have hc : sharedPieces (c :: bs) ≠ [] := fun h => hbs (by rw [sharedPieces, h, commonStart_nil]; simp)
      have := size_rest_lt hn hb
      have := ih hc
      rw [List.map_cons, sizes, sizes]; omega

theorem sizes_behind_lt {n : Nat} {bs : List Tree} (hn : 0 < n) (hbs : sharedPieces bs ≠ []) :
    sizes (behind n bs) < sizes bs :=
  Nat.lt_of_le_of_lt (sizes_flatMap_branches_le _) (sizes_rest_lt hn hbs)

/-- Branches that are no alternations themselves as one expression. -/
def choose (bs : List Tree) : Tree :=
  match unionOf? bs with
  | some s => ofSet s
  | none =>
    if _h : sharedPieces bs = [] then ofBranches bs
    else sequence (sharedPieces bs ++ [choose (behind (sharedPieces bs).length bs)])
termination_by sizes bs
decreasing_by exact sizes_behind_lt (List.length_pos_iff.2 _h) _h

/-- Branches in order of preference. -/
def choice (rs : List Tree) : Tree :=
  match rs.flatMap branches with
  | [r] => r
  | bs => choose bs

/-! ### Repetitions -/

/-- A repetition.  What takes no character is repeated once at most; no repetition is the empty
expression, and exactly one is the expression itself. -/
def repeated (r : Tree) (min : Nat) (max : Option Nat) (greedy : Bool) : Tree :=
  let min := if r.takesNothing then Nat.min min 1 else min
  let max := if r.takesNothing then some (Nat.min (max.getD 1) 1) else max
  if min = 0 ∧ max = some 0 then .empty
  else if min = 1 ∧ max = some 1 then r
  else .repeat r min max greedy

end ExprEngine.Regex.Tree
