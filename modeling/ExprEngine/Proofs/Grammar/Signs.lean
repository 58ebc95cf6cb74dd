import ExprEngine.Grammar.Operand
import ExprEngine.Grammar.Precedence
import ExprEngine.Proofs.Text.Bytes

/-!
# Bytes of signs

Operators and the subjects of substitutions are written in ASCII without blanks, so blanks behind
them do not matter.  They are read off the bytes of a source as they are read off its characters,
and take as many of the ones as of the others.

* `Grammar.joiner?_marksOnly`, `Grammar.assignment?_marksOnly`, `Grammar.unary?_marksOnly`: the
  operators.
* `Grammar.subject_marksOnly`: the subjects of substitutions.
* `Grammar.subject_length_le` and others: no more is taken than there is.
-/

namespace ExprEngine

open Text

namespace Grammar

/-! ### Operators -/

theorem unlessAssignment_marksOnly (op : Binary) : MarksOnly (Level.unlessAssignment op) := by
  intro cs
  cases cs with
  | nil => rfl
  | cons c cs =>
      by_cases hc : c = '='
      · subst hc
        rfl
      · cases ha : isMark c <;> simp [ha, Level.unlessAssignment, hc]

section

variable {cs : List Char} {x y : Char} {q : Prop}

/-- What a text does not start with, its part up to a blank does not start with either. -/
theorem takeWhile_ne_one (h : ∀ r, cs = x :: r → False) (t : List Char)
    (ht : cs.takeWhile isMark = x :: t) : False :=
  have ⟨r, hr, _⟩ := cons_of_takeWhile ht
  h r hr

theorem takeWhile_ne_two (h : ∀ r, cs = x :: y :: r → False) (t : List Char)
    (ht : cs.takeWhile isMark = x :: y :: t) : False := by
  obtain ⟨r, rfl, hr⟩ := cons_of_takeWhile ht
  exact takeWhile_ne_one (fun r hr => h r (congrArg (x :: ·) hr)) t hr

theorem takeWhile_ne_one_of (h : ∀ r, q → cs = x :: r → False) (t : List Char) (hq : q) :
    cs.takeWhile isMark = x :: t → False :=
  takeWhile_ne_one (h · hq) t

theorem takeWhile_ne_two_of (h : ∀ r, q → cs = x :: y :: r → False) (t : List Char) (hq : q) :
    cs.takeWhile isMark = x :: y :: t → False :=
  takeWhile_ne_two (h · hq) t

end

theorem joiner?_marksOnly (l : Level) : MarksOnly l.joiner? := by
  intro cs
  fun_cases Level.joiner? l cs
  case case13 tail h => exact Level.joiner?.eq_13 _ (takeWhile_ne_one h)
  case case14 tail h => exact Level.joiner?.eq_14 _ (takeWhile_ne_one h)
  case case17 h₁ h₂ h₃ h₄ h₅ h₆ h₇ h₈ h₉ h₁₀ h₁₁ h₁₂ h₁₃ h₁₄ h₁₅ h₁₆ =>
    exact Level.joiner?.eq_17 _ _ (takeWhile_ne_one_of h₁) (takeWhile_ne_one_of h₂)
      (takeWhile_ne_one_of h₃) (takeWhile_ne_one_of h₄) (takeWhile_ne_two_of h₅)
      (takeWhile_ne_two_of h₆) (takeWhile_ne_two_of h₇) (takeWhile_ne_two_of h₈)
      (takeWhile_ne_two_of h₉) (takeWhile_ne_two_of h₁₀) (takeWhile_ne_two_of h₁₁)
      (takeWhile_ne_two_of h₁₂) (takeWhile_ne_one_of h₁₃) (takeWhile_ne_one_of h₁₄)
      (takeWhile_ne_one_of h₁₅) (takeWhile_ne_one_of h₁₆)
  all_goals simp [isMark, isAscii, Ascii.isBlank, Level.joiner?]
  all_goals exact unlessAssignment_marksOnly _ _

theorem assignment?_marksOnly : MarksOnly assignment? := by
  intro cs
  fun_cases assignment? cs
  case case7 h₁ h₂ h₃ h₄ h₅ h₆ =>
    exact assignment?.eq_7 _ (takeWhile_ne_two h₁) (takeWhile_ne_two h₂) (takeWhile_ne_two h₃)
      (takeWhile_ne_two h₄) (takeWhile_ne_two h₅) (takeWhile_ne_one h₆)
  all_goals simp [isMark, isAscii, Ascii.isBlank, assignment?]

theorem unary?_marksOnly : MarksOnly unary? := by
  intro cs
  fun_cases unary? cs
  case case4 tail h => exact unary?.eq_4 _ (takeWhile_ne_one h)
  case case5 tail h => exact unary?.eq_5 _ (takeWhile_ne_one h)
  case case6 h₁ h₂ h₃ h₄ h₅ =>
    exact unary?.eq_6 _ (takeWhile_ne_one h₁) (takeWhile_ne_two h₂) (takeWhile_ne_two h₃)
      (takeWhile_ne_one h₄) (takeWhile_ne_one h₅)
  all_goals simp [isMark, isAscii, Ascii.isBlank, unary?]

theorem startsNumber_append {post : List Char} (hp : Ends post) (cs : List Char) :
    startsNumber (cs ++ post) = startsNumber cs := by
  have hdigit : ∀ c, isMark c = false → c.isDigit = false := fun _ => isDigit_ofMarks.eq_false
  have hpost : startsNumber post = false := by
    cases post with
    | nil => rfl
    | cons c post =>
        rw [startsNumber]
        · exact hdigit c (hp c rfl)
        · rintro d ds rfl
          cases hp '.' rfl
  match cs with
  | [] => exact hpost
  | [c] =>
      by_cases hc : c = '.'
      · subst hc
        cases post with
        | nil => rfl
        | cons d post => exact hdigit d (hp d rfl)
      · have hne : ∀ ds, startsNumber (c :: ds) = c.isDigit := fun ds =>
          startsNumber.eq_2 c ds fun _ _ h => absurd h hc
        rw [List.singleton_append, hne, hne]
  | c :: d :: cs =>
      by_cases hc : c = '.'
      · subst hc
        rfl
      · have hne : ∀ ds, startsNumber (c :: ds) = c.isDigit := fun ds =>
          startsNumber.eq_2 c ds fun _ _ h => absurd h hc
        rw [List.cons_append, hne, hne]

theorem startsNumber_marksOnly : MarksOnly startsNumber :=
  .of_append fun cs _ hp => startsNumber_append hp cs

/-! ### Lengths -/

theorem length_of_joiner? {l : Level} {cs : List Char} {j : Joiner} {n : Nat}
    (h : l.joiner? cs = some (j, n)) : 0 < n ∧ n ≤ cs.length := by
  have hu : ∀ op cs, Level.unlessAssignment op cs = some (j, n) → n = 1 := by
    intro op cs h
    unfold Level.unlessAssignment at h
    split at h <;> cases h
    rfl
  unfold Level.joiner? at h
  split at h
  case h_1 | h_2 | h_3 | h_4 =>
    rw [hu _ _ h]
    simp
  all_goals
    cases h
    try simp

theorem length_of_assignment? {cs : List Char} {op : Binary} {n : Nat}
    (h : assignment? cs = some (op, n)) : 0 < n ∧ n ≤ cs.length := by
  unfold assignment? at h
  split at h <;> cases h <;> simp

theorem length_of_unary? {cs : List Char} {op : Unary} {n : Nat}
    (h : unary? cs = some (op, n)) : 0 < n ∧ n ≤ cs.length := by
  unfold unary? at h
  split at h <;> cases h <;> simp

theorem goesOn_append {post : List Char} (hp : Ends post) (bracketed : Bool) {ds rest : List Char}
    (hd : ds.length ≤ rest.length) :
    subject.goesOn bracketed ds (rest ++ post) = subject.goesOn bracketed ds rest := by
  have hw : ∀ cs : List Char, (cs ++ post).head?.any Ascii.isWord = cs.head?.any Ascii.isWord := by
    intro cs
    cases cs with
    | cons c cs => rfl
    | nil =>
        cases post with
        | nil => rfl
        | cons c post =>
            exact isWord_ofMarks.eq_false (hp c rfl)
  rw [subject.goesOn, subject.goesOn, List.drop_append_of_le_length hd, hw]

/-- The subject that a name in front of a text is. -/
def asName (except : Bool) (cs : List Char) : Subject × Bool × Nat :=
  let named := cs.takeWhile Ascii.isWord
  (namedSubject (String.ofList named), except, named.length)

section

variable (bracketed except : Bool) (cs : List Char)

theorem subject_fromLast :
    subject bracketed except ('L' :: cs) =
      let ds := cs.takeWhile Char.isDigit
      if subject.goesOn bracketed ds cs then asName except ('L' :: cs)
      else
        let n := if ds.isEmpty then 1 else index ds
        (.param (if except then .allButLast n else .fromLast n), false, ds.length + 1) :=
  rfl

theorem subject_capture :
    subject bracketed except ('P' :: cs) =
      let ds := cs.takeWhile Char.isDigit
      if subject.goesOn bracketed ds cs then asName except ('P' :: cs)
      else (.param (.capture (if ds.isEmpty then 1 else index ds)), except, ds.length + 1) :=
  rfl

theorem subject_other (h : ∀ c, cs.head? = some c → c ∉ ['*', 'L', 'P']) :
    subject bracketed except cs =
      let ds := cs.takeWhile Char.isDigit
      if ds.isEmpty then asName except cs
      else match index ds with
        | 0 => (.param .frameName, except, ds.length)
        | n => (.param (if except then .allButFirst n else .nth n), false, ds.length) := by
  unfold subject
  dsimp only
  split
  · exact absurd (by decide) (h '*' rfl)
  · exact absurd (by decide) (h 'L' rfl)
  · exact absurd (by decide) (h 'P' rfl)
  · rfl

end

theorem subject_append {post : List Char} (hp : Ends post) (bracketed except : Bool)
    (cs : List Char) : subject bracketed except (cs ++ post) = subject bracketed except cs := by
  have hl : ∀ rest : List Char, (rest.takeWhile Char.isDigit).length ≤ rest.length :=
    fun rest => (List.takeWhile_prefix _).length_le
  have hn : ∀ cs, asName except (cs ++ post) = asName except cs := fun cs => by
    rw [asName, (isWord_ofMarks.takeWhile_append hp cs).1]
    rfl
  by_cases h : ∀ c, cs.head? = some c → c ∉ ['*', 'L', 'P']
  · have h' : ∀ c, (cs ++ post).head? = some c → c ∉ ['*', 'L', 'P'] := by
      cases cs with
      | cons c cs => exact h
      | nil =>
          intro c hc hm
          have ha := hp c hc
          simp only [List.mem_cons, List.not_mem_nil, or_false] at hm
          rcases hm with rfl | rfl | rfl <;> cases ha
    rw [subject_other _ _ _ h, subject_other _ _ _ h', hn,
      (isDigit_ofMarks.takeWhile_append hp cs).1]
  · simp only [Classical.not_forall, Classical.not_not] at h
    obtain ⟨c, hc, hm⟩ := h
    cases cs with
    | nil => cases hc
    | cons d cs =>
        cases hc
        have hd := (isDigit_ofMarks.takeWhile_append hp cs).1
        have hg := goesOn_append hp bracketed (hl cs)
        simp only [List.mem_cons, List.not_mem_nil, or_false] at hm
        rcases hm with rfl | rfl | rfl
        · rfl
        · rw [List.cons_append, subject_fromLast, subject_fromLast, hd]
          dsimp only
          rw [hg, ← List.cons_append, hn]
        · rw [List.cons_append, subject_capture, subject_capture, hd]
          dsimp only
          rw [hg, ← List.cons_append, hn]

theorem subject_marksOnly (bracketed except : Bool) : MarksOnly (subject bracketed except) :=
  .of_append fun cs _ hp => subject_append hp bracketed except cs

theorem subject_length_le (bracketed except : Bool) (cs : List Char) :
    (subject bracketed except cs).2.2 ≤ cs.length := by
  have hl : ∀ (p : Char → Bool) (rest : List Char), (rest.takeWhile p).length ≤ rest.length :=
    fun p rest => (List.takeWhile_prefix _).length_le
  unfold subject
  dsimp only
  split
  · exact Nat.le_add_left _ _
  · split
    · exact hl _ _
    · exact Nat.succ_le_succ (hl _ _)
  · split
    · exact hl _ _
    · exact Nat.succ_le_succ (hl _ _)
  · split
    · exact hl _ _
    · split <;> exact hl _ _

/-- The name of a variable is what its subject takes. -/
theorem subject_variable {bracketed except stray : Bool} {cs : List Char} {x : String} {n : Nat}
    (h : subject bracketed except cs = (.variable x, stray, n)) :
    x = String.ofList (cs.take n) := by
  have hn : ∀ cs, asName except cs = (.variable x, stray, n) → x = String.ofList (cs.take n) := by
    intro cs h
    have hp : cs.takeWhile Ascii.isWord <+: cs := List.takeWhile_prefix _
    simp only [asName, Prod.mk.injEq] at h
    obtain ⟨hx, -, rfl⟩ := h
    rw [← List.prefix_iff_eq_take.mp hp]
    unfold namedSubject at hx
    split at hx <;> cases hx
    rfl
  unfold subject at h
  dsimp only at h
  split at h
  · cases h
  · split at h
    · exact hn _ h
    · cases h
  · split at h
    · exact hn _ h
    · cases h
  · split at h
    · exact hn _ h
    · split at h <;> cases h

end Grammar

end ExprEngine
