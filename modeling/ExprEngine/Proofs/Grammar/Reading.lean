import ExprEngine.Proofs.Grammar.Rendering

/-!
# Reading by precedence

Each function of the grammar reads at one precedence, and they agree on when to stop: where no sign
stands that one of them, down to the tightest, would go on with.

* `Grammar.Precedence.read`: the function that reads at a precedence.
* `Grammar.Precedence.goesOn`: what a text of the precedence may go on with.
* `Grammar.Reads`: a text is read, up to what follows it, as an expression that renders a formula.
* `Grammar.Leads`: the same of a text that stands left of operators of the precedence.
* `Grammar.Reads.looser`: what is read at some precedence is read at the looser ones.
-/

namespace ExprEngine

/-! ### Cursors -/

namespace Cursor

variable {c d : Cursor} {cs rest : List Char} {ch : Char}

theorem length_le_self (c : Cursor) : c.rest.length ≤ c.rest.length :=
  Nat.le_refl _

theorem rest_skipWhile (c : Cursor) (p : Char → Bool) :
    (c.skipWhile p).rest = c.rest.dropWhile p := by
  have h : c.rest.takeWhile p ++ c.rest.dropWhile p = c.rest := List.takeWhile_append_dropWhile
  calc c.rest.drop (c.rest.takeWhile p).length
      = (c.rest.takeWhile p ++ c.rest.dropWhile p).drop (c.rest.takeWhile p).length := by rw [h]
    _ = c.rest.dropWhile p := List.drop_left

theorem rest_pastBlanks (c : Cursor) : c.pastBlanks.val.rest = c.rest.dropWhile Ascii.isBlank :=
  c.rest_skipWhile _

theorem rest_advance_length (h : c.rest = cs ++ rest) : (c.advance cs.length).rest = rest := by
  simp [advance, h]

theorem eat?_cons (h : c.rest = ch :: cs) : ∃ d hd, c.eat? ch = some ⟨d, hd⟩ ∧ d.rest = cs := by
  obtain ⟨_, pos, notes⟩ := c
  subst h
  exact ⟨_, _, by simp [eat?]; rfl, by simp [advance]⟩

theorem eat?_of_ne (h : c.rest.head? ≠ some ch) : c.eat? ch = none := by
  unfold eat?
  split
  · rfl
  · next d ds hd =>
    rw [if_neg]
    rintro rfl
    exact h (by rw [hd]; rfl)

theorem eat?_of_head? (h : c.rest.head? = some ch) :
    ∃ hd, c.eat? ch = some ⟨c.advance 1, hd⟩ := by
  obtain ⟨_ | ⟨_, cs⟩, pos, notes⟩ := c <;> cases h
  exact ⟨by simp [Cursor.advance], by simp [eat?]⟩

theorem head?_of_eat?_none (h : c.eat? ch = none) : c.rest.head? ≠ some ch := by
  intro hh
  obtain ⟨_, hs⟩ := eat?_of_head? hh
  cases h.symm.trans hs

/-- Behind a character that comes next. -/
theorem eq_advance_of_eat? {hd} (h : c.eat? ch = some ⟨d, hd⟩) :
    d = c.advance 1 ∧ c.rest.head? = some ch := by
  unfold Cursor.eat? at h
  split at h
  · cases h
  · next x cs hcs =>
    split at h
    · next hx =>
      cases h
      exact ⟨rfl, by rw [hcs, hx]; rfl⟩
    · cases h

theorem advance_advance (c : Cursor) (n k : Nat) : (c.advance n).advance k = c.advance (n + k) := by
  simp only [advance, List.drop_drop, List.take_add, Text.byteSize_append, Nat.add_assoc]

theorem textTo_advance {n : Nat} (hn : n ≤ c.rest.length) :
    c.textTo (c.advance n) = String.ofList (c.rest.take n) := by
  rw [textTo, length_advance, Nat.sub_sub_self hn]

theorem textTo_skipWhile (c : Cursor) (p : Char → Bool) :
    c.textTo (c.skipWhile p) = String.ofList (c.takeWhile p) := by
  have hprefix : c.takeWhile p <+: c.rest := List.takeWhile_prefix p
  rw [skipWhile, textTo_advance hprefix.length_le, ← List.prefix_iff_eq_take.mp hprefix]

theorem read?_append {α : Type} {reader : List Char → Option (α × Nat)} {a : α}
    (h : c.rest = cs ++ rest) (hs : cs ≠ []) (hr : reader c.rest = some (a, cs.length)) :
    ∃ d hd, c.read? reader = some (a, ⟨d, hd⟩) ∧ d.rest = rest := by
  have hn : 0 < cs.length ∧ cs.length ≤ c.rest.length := by
    rw [h, List.length_append]
    exact ⟨List.length_pos_iff.mpr hs, Nat.le_add_right _ _⟩
  refine ⟨c.advance cs.length, by simp; omega, ?_, rest_advance_length h⟩
  simp [read?, hr, hn]

theorem read?_none {α : Type} {reader : List Char → Option (α × Nat)} (hr : reader c.rest = none) :
    c.read? reader = none := by
  simp [read?, hr]

end Cursor

namespace Grammar

/-! ### Precedences -/

namespace Precedence

/-- What reads at a precedence, with blanks in front; a primary operand may stand behind a slash. -/
def read (commands : Commands) (slash : Bool) (c : Cursor) :
    Precedence → Except Rejection (Parsed Expr c)
  | primary => do return (← Grammar.primary commands slash c.pastBlanks.val).since c.pastBlanks.2
  | unary => Grammar.unary commands slash c
  | level l => chain commands l c
  | conditional => Grammar.conditional commands c
  | assignment => Grammar.assignment commands c
  | sequence => Grammar.sequence commands c

/-- What reads the operators of a precedence that binds to the left, and their right operands. -/
def tail (commands : Commands) (left : Expr) (c : Cursor) :
    Precedence → Except Rejection (Parsed Expr c)
  | level l => chainTail commands l left c
  | sequence => sequenceTail commands left c
  | _ => .ok ⟨left, c, c.length_le_self⟩

/-- A text of the precedence goes on with what stands here, and one of a tighter precedence does
not. -/
def goesOn (cs : List Char) : Precedence → Bool
  | primary => false
  | unary => cs.head? == some '('
  | level l => (l.joiner? cs).isSome
  | conditional => cs.head? == some '?'
  | assignment => (assignment? cs).isSome
  | sequence => cs.head? == some ','

theorem eq_of_looseness {j k : Precedence} (h : j.looseness = k.looseness) : j = k := by
  rcases j with _ | _ | ⟨⟨⟩⟩ | _ | _ | _ <;> rcases k with _ | _ | ⟨⟨⟩⟩ | _ | _ | _ <;>
    first | rfl | cases h

/-- From each precedence to the next looser one. -/
theorem loosening {P : Precedence → Prop} (tightest : P primary)
    (next : ∀ {j k : Precedence}, k.tighter? = some j → P j → P k) (k : Precedence) : P k := by
  induction hn : k.looseness generalizing k with
  | zero =>
      obtain rfl : k = primary := eq_of_looseness hn
      exact tightest
  | succ n ih =>
      obtain ⟨j, hj⟩ : ∃ j, k.tighter? = some j := by
        cases k with
        | primary => cases hn
        | _ => exact ⟨_, rfl⟩
      have hl := looseness_of_tighter? hj
      exact next hj (ih j (by omega))

theorem operand_eq_read (commands : Commands) (slash : Bool) {l : Level} {j : Precedence}
    (h : (level l).tighter? = some j) (c : Cursor) :
    operand commands l slash c = j.read commands slash c := by
  cases h
  rw [operand]
  split
  · next hl => simp only [hl]; rfl
  · next m hm => simp only [hm]; rfl

theorem primary_of_read {commands : Commands} {slash : Bool} {c : Cursor} {p : Parsed Expr c}
    (h : primary.read commands slash c = .ok p) :
    ∃ q, Grammar.primary commands slash c.pastBlanks.val = .ok q ∧ p = q.since c.pastBlanks.2 := by
  rw [read] at h
  cases hq : Grammar.primary commands slash c.pastBlanks.val with
  | error r =>
      rw [hq] at h
      cases h
  | ok q =>
      rw [hq] at h
      cases h
      exact ⟨q, rfl, rfl⟩

end Precedence

/-! ### What follows a text -/

/-- No name or number goes on here. -/
def Stops (rest : List Char) : Prop :=
  ∀ ch, rest.head? = some ch → Ascii.isWord ch = false ∧ ch ≠ '.' ∧ ch ≠ ':'

/-- A text of precedence `k` ends here, as do those of tighter ones: the name or number that it may
end in does not go on, and no sign of theirs comes next. -/
structure Follows (k : Precedence) (rest : List Char) : Prop where
  stops : Stops rest
  ends : ∀ j : Precedence, j.looseness ≤ k.looseness →
    j.goesOn (rest.dropWhile Ascii.isBlank) = false

theorem Follows.mono {j k : Precedence} {rest : List Char} (h : Follows k rest)
    (hj : j.looseness ≤ k.looseness) : Follows j rest :=
  ⟨h.stops, fun i hi => h.ends i (Nat.le_trans hi hj)⟩

/-! ### Reading formulas -/

section

variable (commands : Commands)

/-- The expression read from a cursor on renders a formula, and reading goes on behind the blanks
in front of `rest`. -/
structure Finds (f : Formula) (rest : List Char) {c : Cursor} (p : Parsed Expr c) : Prop where
  renders : Renders commands f p.value
  rest : p.next.rest = rest.dropWhile Ascii.isBlank

/-- The text of a formula is read at a precedence, up to what follows. -/
def Reads (k : Precedence) (f : Formula) (cs : List Char) : Prop :=
  ∀ slash (c : Cursor) rest, c.rest.dropWhile Ascii.isBlank = cs ++ rest → Follows k rest →
    ∃ p, k.read commands slash c = .ok p ∧ Finds commands f rest p

/-- The text of a formula is read at a precedence up to an operator of that precedence, if there is
one, which reading goes on with. -/
def Leads (k : Precedence) (f : Formula) (cs : List Char) : Prop :=
  ∀ slash (c : Cursor) rest, c.rest.dropWhile Ascii.isBlank = cs ++ rest →
    (∀ j, k.tighter? = some j → Follows j rest) →
    ∃ p : Parsed Expr c, Finds commands f rest p ∧
      k.read commands slash c = k.tail commands p.value p.next >>= fun q => pure (q.since p.le)

end

variable {commands : Commands} {f : Formula} {cs : List Char}

/-- Where no operator of the precedence comes next, the operand is all. -/
theorem Precedence.tail_stop {k : Precedence} {c : Cursor} (h : k.goesOn c.rest = false)
    (left : Expr) : k.tail commands left c = .ok ⟨left, c, Nat.le_refl _⟩ := by
  cases k with
  | level l =>
      have hr : l.joiner? c.rest = none := by simpa [goesOn] using h
      rw [tail, chainTail, Cursor.read?_none hr]
      rfl
  | sequence =>
      rw [tail, sequenceTail, Cursor.eat?_of_ne (by simpa [goesOn] using h)]
      rfl
  | _ => rfl

/-- An operand of the next tighter precedence stands behind a slash: the text does, and it starts
with no blank. -/
def Precedence.behindSlash (slash : Bool) (c : Cursor) : Precedence → Bool
  | unary => slash && c.pastBlanks.val.pos == c.pos
  | _ => false

/-- **A precedence reads what the next tighter one reads** if no sign of its own stands in front or
behind. -/
theorem Precedence.read_of_tighter {j k : Precedence} (slash : Bool) {c : Cursor}
    (hk : k.tighter? = some j)
    (hu : j = .primary → unary? (c.rest.dropWhile Ascii.isBlank) = none)
    (hs : ∀ p, j.read commands (k.behindSlash slash c) c = .ok p → k.goesOn p.next.rest = false) :
    k.read commands slash c = j.read commands (k.behindSlash slash c) c := by
  cases k with
  | primary => cases hk
  | level l =>
      simp only [behindSlash] at hs ⊢
      rw [read, chain, operand_eq_read commands false hk]
      cases hx : j.read commands false c with
      | error r => rfl
      | ok p =>
          have ht : chainTail commands l p.value p.next = .ok ⟨p.value, p.next, Nat.le_refl _⟩ :=
            tail_stop (hs p hx) p.value
          show (chainTail commands l p.value p.next >>= fun q => pure (q.since p.le)) = _
          rw [ht]
          rfl
  | sequence =>
      cases hk
      simp only [behindSlash] at hs ⊢
      simp only [read] at hs ⊢
      rw [Grammar.sequence.eq_1]
      cases hx : Grammar.assignment commands c with
      | error r => rfl
      | ok p =>
          have ht : sequenceTail commands p.value p.next = .ok ⟨p.value, p.next, Nat.le_refl _⟩ :=
            tail_stop (hs p hx) p.value
          show (sequenceTail commands p.value p.next >>= fun q => pure (q.since p.le)) = _
          rw [ht]
          rfl
  | unary =>
      cases hk
      have hu : c.pastBlanks.val.read? unary? = none :=
        Cursor.read?_none (by rw [Cursor.rest_pastBlanks]; exact hu rfl)
      simp only [Cursor.pastBlanks, behindSlash, read] at hu hs ⊢
      rw [Grammar.unary]
      simp only [Cursor.pastBlanks, hu]
      cases hx : Grammar.primary commands
          (slash && (c.skipWhile Ascii.isBlank).pos == c.pos) (c.skipWhile Ascii.isBlank) with
      | error r => rfl
      | ok p =>
          have hd : p.next.eat? '(' = none := Cursor.eat?_of_ne (by
            have hn : unary.goesOn p.next.rest = false :=
              hs (p.since (c.length_skipWhile_le _)) (by rw [hx]; rfl)
            simpa [goesOn] using hn)
          simp only [bind, Except.bind, hd]
          rfl
  | conditional =>
      cases hk
      simp only [behindSlash] at hs ⊢
      show Grammar.conditional commands c = chain commands .disjunction c
      rw [Grammar.conditional]
      cases hx : chain commands .disjunction c with
      | error r => rfl
      | ok p =>
          have hd : p.next.eat? '?' = none := Cursor.eat?_of_ne (by simpa [goesOn] using hs p hx)
          simp only [bind, Except.bind, hd]
          rfl
  | assignment =>
      cases hk
      simp only [behindSlash] at hs ⊢
      show Grammar.assignment commands c = Grammar.conditional commands c
      rw [Grammar.assignment]
      cases hx : Grammar.conditional commands c with
      | error r => rfl
      | ok p =>
          have hd : p.next.read? assignment? = none :=
            Cursor.read?_none (by simpa [goesOn] using hs p hx)
          simp only [bind, Except.bind, hd]
          rfl

theorem Follows.of_tighter? {j k : Precedence} {rest : List Char} (h : Follows k rest)
    (hj : k.tighter? = some j) : Follows j rest :=
  h.mono (Nat.le_of_lt (Nat.lt_of_lt_of_eq (Nat.lt_succ_self _)
    (Precedence.looseness_of_tighter? hj).symm))

theorem Leads.reads {k : Precedence} (h : Leads commands k f cs) : Reads commands k f cs := by
  intro slash c rest hc hr
  obtain ⟨p, hp, he⟩ := h slash c rest hc fun j hj => hr.of_tighter? hj
  have hs : k.goesOn p.next.rest = false := by
    rw [hp.rest]
    exact hr.ends k (Nat.le_refl _)
  rw [Precedence.tail_stop hs] at he
  exact ⟨p, he, hp⟩

/-- What is read as an operand of a level, or of a sequence, leads to its operators. -/
theorem Reads.leads {j k : Precedence} (hk : k.tighter? = some j)
    (hl : k = .sequence ∨ ∃ l, k = .level l) (h : Reads commands j f cs) :
    Leads commands k f cs := by
  intro slash c rest hc hr
  obtain ⟨p, he, hp⟩ := h false c rest hc (hr j hk)
  refine ⟨p, hp, ?_⟩
  rcases hl with rfl | ⟨l, rfl⟩
  · cases hk
    replace he : assignment commands c = .ok p := he
    rw [Precedence.read, Grammar.sequence, he]
    rfl
  · rw [Precedence.read, chain, Precedence.operand_eq_read commands false hk, he]
    rfl

/-- **What is read at some precedence is read at the next looser one**; a primary operand, if it
starts with no sign. -/
theorem Reads.next {j k : Precedence} (hk : k.tighter? = some j)
    (hs : j = .primary → ∀ rest, unary? (cs ++ rest) = none) (h : Reads commands j f cs) :
    Reads commands k f cs := by
  intro slash c rest hc hr
  obtain ⟨p, he, hp⟩ := h (k.behindSlash slash c) c rest hc (hr.of_tighter? hk)
  refine ⟨p, ?_, hp⟩
  rw [Precedence.read_of_tighter slash hk (fun hj => by rw [hc]; exact hs hj rest), he]
  intro q hq
  cases he.symm.trans hq
  rw [hp.rest]
  exact hr.ends k (Nat.le_refl _)

/-- What is read at some precedence is read at all looser ones. -/
theorem Reads.looser {j k : Precedence} (hk : j.looseness ≤ k.looseness)
    (hs : j = .primary → ∀ rest, unary? (cs ++ rest) = none) (h : Reads commands j f cs) :
    Reads commands k f cs := by
  induction k using Precedence.loosening with
  | tightest =>
      obtain rfl : j = .primary := Precedence.eq_of_looseness (Nat.le_zero.mp hk)
      exact h
  | @next i k hi ih =>
      have hl := Precedence.looseness_of_tighter? hi
      by_cases hj : j.looseness ≤ i.looseness
      · refine Reads.next hi (fun hp => hs (Precedence.eq_of_looseness ?_)) (ih hj)
        subst hp
        exact Nat.le_zero.mp hj
      · obtain rfl : j = k := Precedence.eq_of_looseness (by omega)
        exact h

end Grammar

end ExprEngine
