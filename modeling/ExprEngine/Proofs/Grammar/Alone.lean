import ExprEngine.Proofs.Grammar.Reading
import ExprEngine.Proofs.Program.Constants

/-!
# Sources of one operand

A source that is one primary operand, with blanks around it, is read by the function for primary
operands, whose word is that of the whole grammar: where it refuses the operand the source is
refused, and where it reads it up to the end the source is that operand.  The other way around, a
source whose tree has no parts was read by that function alone.

* `Grammar.Precedence.read_alone`: what the loosest precedence reads of such a source.
* `Grammar.Precedence.leaf_alone`: where it reads a leaf, a primary operand is all there is.
* `Grammar.parse_alone`, `Grammar.parse_refused`: the tree of the source, or why it has none.
-/

namespace ExprEngine

namespace Grammar

variable {commands : Commands} {c : Cursor}

theorem ok_of_bind {ε α β : Type} {x : Except ε α} {f : α → Except ε β} {b : β}
    (h : x >>= f = .ok b) : ∃ a, x = .ok a ∧ f a = .ok b := by
  cases x with
  | error e => cases h
  | ok a => exact ⟨a, rfl, h⟩

/-! ### One operand -/

namespace Precedence

theorem goesOn_nil (k : Precedence) : k.goesOn [] = false := by
  cases k with
  | level l => cases l <;> rfl
  | _ => rfl

theorem behindSlash_false (k : Precedence) (c : Cursor) : k.behindSlash false c = false := by
  cases k <;> rfl

/-- **A primary operand up to the end** is what is read at every precedence. -/
theorem read_alone (hu : unary? (c.rest.dropWhile Ascii.isBlank) = none)
    (he : ∀ p, primary.read commands false c = .ok p → p.next.rest = []) (k : Precedence) :
    k.read commands false c = primary.read commands false c := by
  induction k using loosening with
  | tightest => rfl
  | @next j k hk ih =>
      have hs : ∀ p, j.read commands false c = .ok p → k.goesOn p.next.rest = false := by
        intro p hp
        rw [he p (ih ▸ hp), goesOn_nil]
      have hr := read_of_tighter false hk (fun _ => hu) (by rwa [behindSlash_false])
      rwa [behindSlash_false, ih] at hr

/-! ### Leaves -/

section

variable {left : Expr} {l : Leaf} {span : Span}

/-- What operators make of what stands left of them is no leaf. -/
theorem chainTail_leaf {level : Level} {p : Parsed Expr c}
    (h : chainTail commands level left c = .ok p) (hp : p.value = .leaf l span) :
    p.value = left ∧ p.next = c := by
  induction hn : c.rest.length using Nat.strongRecOn generalizing c left with
  | ind n ih =>
      subst hn
      rw [chainTail] at h
      cases hj : c.read? level.joiner? with
      | none =>
          simp only [hj] at h
          cases h
          exact ⟨rfl, rfl⟩
      | some found =>
          obtain ⟨j, d, hd⟩ := found
          simp only [hj] at h
          obtain ⟨right, -, h⟩ := ok_of_bind h
          obtain ⟨q, ht, h⟩ := ok_of_bind h
          cases h
          -- all that follows is built around this operator
          obtain ⟨hv, -⟩ := ih _ (Nat.lt_of_le_of_lt right.le hd) ht hp rfl
          cases j <;> cases hv.symm.trans hp

theorem sequenceTail_leaf {p : Parsed Expr c} (h : sequenceTail commands left c = .ok p)
    (hp : p.value = .leaf l span) : p.value = left ∧ p.next = c := by
  induction hn : c.rest.length using Nat.strongRecOn generalizing c left with
  | ind n ih =>
      subst hn
      rw [sequenceTail] at h
      cases hj : c.eat? ',' with
      | none =>
          simp only [hj] at h
          cases h
          exact ⟨rfl, rfl⟩
      | some found =>
          obtain ⟨d, hd⟩ := found
          simp only [hj] at h
          obtain ⟨right, -, h⟩ := ok_of_bind h
          obtain ⟨q, ht, h⟩ := ok_of_bind h
          cases h
          obtain ⟨hv, -⟩ := ih _ (Nat.lt_of_le_of_lt right.le hd) ht hp rfl
          cases hv.symm.trans hp

/-- A leaf that is read at some precedence is read at the next tighter one. -/
theorem tighter_of_leaf {j k : Precedence} {p : Parsed Expr c} (hk : k.tighter? = some j)
    (h : k.read commands false c = .ok p) (hp : p.value = .leaf l span) :
    j.read commands false c = .ok p := by
  cases k with
  | primary => cases hk
  | level level =>
      rw [read, chain, operand_eq_read commands false hk] at h
      obtain ⟨q, hq, h⟩ := ok_of_bind h
      obtain ⟨r, hr, h⟩ := ok_of_bind h
      cases h
      obtain ⟨hv, hn⟩ := chainTail_leaf hr hp
      obtain ⟨value, next, le⟩ := r
      subst hv hn
      exact hq
  | sequence =>
      cases hk
      rw [read, Grammar.sequence] at h
      obtain ⟨q, hq, h⟩ := ok_of_bind h
      obtain ⟨r, hr, h⟩ := ok_of_bind h
      cases h
      obtain ⟨hv, hn⟩ := sequenceTail_leaf hr hp
      obtain ⟨value, next, le⟩ := r
      subst hv hn
      exact hq
  | assignment =>
      cases hk
      rw [read, Grammar.assignment] at h
      obtain ⟨q, hq, h⟩ := ok_of_bind h
      dsimp only at h
      split at h
      · cases h
        exact hq
      · obtain ⟨r, -, h⟩ := ok_of_bind h
        cases h
        cases hp
  | conditional =>
      cases hk
      rw [read, Grammar.conditional] at h
      obtain ⟨q, hq, h⟩ := ok_of_bind h
      dsimp only at h
      split at h
      · cases h
        exact hq
      split at h
      · obtain ⟨r, -, h⟩ := ok_of_bind h
        cases h
        cases hp
      · obtain ⟨yes, -, h⟩ := ok_of_bind h
        split at h
        · cases h
        · obtain ⟨no, -, h⟩ := ok_of_bind h
          cases h
          cases hp
  | unary =>
      cases hk
      rw [read, Grammar.unary] at h
      dsimp only at h
      split at h
      · obtain ⟨e, -, h⟩ := ok_of_bind h
        cases h
        cases hp
      · obtain ⟨q, hq, h⟩ := ok_of_bind h
        split at h
        · cases h
          rw [Bool.false_and] at hq
          rw [read, hq]
          rfl
        split at h
        · cases h
        obtain ⟨args, -, h⟩ := ok_of_bind h
        split at h
        · cases h
        · cases h
          cases hp

/-- **A leaf** that is read at whatever precedence is read as a primary operand. -/
theorem leaf_alone {k : Precedence} {p : Parsed Expr c} (h : k.read commands false c = .ok p)
    (hp : p.value = .leaf l span) : primary.read commands false c = .ok p := by
  induction k using loosening with
  | tightest => exact h
  | next hk ih => exact ih (tighter_of_leaf hk h hp)

end

end Precedence

/-! ### Sources -/

section

variable {source : String}

/-- The cursor behind the blanks that a source starts with. -/
abbrev start (source : String) : Cursor :=
  (Cursor.ofString source).pastBlanks.val

theorem rest_start (source : String) :
    (start source).rest = source.toList.dropWhile Ascii.isBlank :=
  (Cursor.ofString source).rest_pastBlanks

theorem start_eq (h : source.toList.dropWhile Ascii.isBlank = source.toList) :
    start source = .ofString source := by
  have ht : source.toList.takeWhile Ascii.isBlank = [] := by
    have happ := List.takeWhile_append_dropWhile (p := Ascii.isBlank) (l := source.toList)
    rw [h] at happ
    exact List.append_left_eq_self.mp happ
  show (Cursor.ofString source).advance (source.toList.takeWhile Ascii.isBlank).length = _
  rw [ht]
  rfl

theorem read_of_bare {p : Parsed Expr c.pastBlanks.val}
    (h : bare commands false c.pastBlanks.val = .ok p) :
    ∃ q, Precedence.primary.read commands false c = .ok q ∧ q.value = p.value ∧
      q.next = p.next.pastBlanks.val := by
  rw [Precedence.read, primary, h]
  exact ⟨_, rfl, rfl, rfl⟩

theorem bare_of_read {q : Parsed Expr c} (h : Precedence.primary.read commands false c = .ok q) :
    ∃ p, bare commands false c.pastBlanks.val = .ok p ∧ q.value = p.value ∧
      q.next = p.next.pastBlanks.val := by
  rw [Precedence.read, primary] at h
  obtain ⟨r, hr, h⟩ := ok_of_bind h
  cases h
  obtain ⟨p, hp, h⟩ := ok_of_bind hr
  cases h
  exact ⟨p, hp, rfl, rfl⟩

/-- **A source of one operand** has the operand for its tree. -/
theorem parse_alone (hu : unary? (start source).rest = none)
    {p : Parsed Expr (start source)} (hb : bare commands false (start source) = .ok p)
    (he : p.next.rest.dropWhile Ascii.isBlank = []) :
    parse commands source = (.ok p.value, p.next.notes.reverse) := by
  obtain ⟨q, hq, hv, hn⟩ := read_of_bare hb
  have hend : q.next.rest = [] := by rw [hn, Cursor.rest_pastBlanks, he]
  rw [rest_start] at hu
  have hr := Precedence.read_alone hu (fun r hr => by cases hq.symm.trans hr; exact hend) .sequence
  have hs : sequence commands (.ofString source) = .ok q := hr.trans hq
  rw [parse, hs]
  have hempty : q.next.rest.isEmpty = true := List.isEmpty_iff.mpr hend
  simp only [bind, Except.bind, hempty, if_true, hv]
  rw [hn]
  rfl

/-- A source of one operand is refused where the operand is. -/
theorem parse_refused (hu : unary? (start source).rest = none) {r : Rejection}
    (hb : bare commands false (start source) = .error r) :
    parse commands source = (.error r.error, r.notes.reverse) := by
  have hq : Precedence.primary.read commands false (.ofString source) = .error r := by
    rw [Precedence.read, primary, hb]
    rfl
  rw [rest_start] at hu
  have hr := Precedence.read_alone hu (fun p hp => by cases hq.symm.trans hp) .sequence
  have hs : sequence commands (.ofString source) = .error r := hr.trans hq
  rw [parse, hs]
  rfl

end

end Grammar

end ExprEngine
