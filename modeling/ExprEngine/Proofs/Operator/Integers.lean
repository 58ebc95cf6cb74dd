import ExprEngine.Proofs.Operator.Times

/-!
# Sums and quotients of integers

Integers are read from settings, from texts and through references as well, and none of that is
reported.  A sum, a difference or a negative of them is the exact one if that is a word, and is
computed on reals otherwise.  A quotient is the exact one, toward zero, but for the one quotient that
is no word: the least word divided by minus one stays what it is.

* `Session.integer?`: the integer that a value stands for.
* `Operator.arithmetic_integers`: sums and differences.
* `Operator.integers_exact`: all of it together.
-/

namespace ExprEngine

/-- The integer that a content is, a text being parsed. -/
def Payload.integer? : Payload → Option Int64
  | .int n | .pos n | .enumerated n _ => some n
  | .text t =>
    match Literal.parse t.toList with
    | .ok (.int n, _) => some n
    | _ => none
  | _ => none

/-- The integer that a value stands for: its own, or that of the variable that it names, which is
zero if there is none. -/
def Session.integer? (s : Session) (v : Value) : Option Int64 :=
  match v.name? with
  | some x =>
    match s.lookup x with
    | some w => w.payload.integer?
    | none => some 0
  | none => v.payload.integer?

variable {s : Session} {u v : Value} {n x y : Int64}

/-! ### Operands -/

theorem Payload.number_of_integer? {p : Payload} (h : p.integer? = some n) :
    p.number = pure (some (.int n)) := by
  cases p with
  | int i | pos i | enumerated i name =>
      cases h
      rfl
  | text t =>
      simp only [integer?] at h
      split at h
      · next m used hp =>
        cases h
        simp only [number, hp]
        rfl
      · cases h
  | time | real | name | function | command => cases h

theorem Value.name?_of_integer? (h : v.payload.integer? = some n) : v.name? = none := by
  obtain ⟨p, c⟩ := v
  cases p with
  | name y => cases h
  | _ => rfl

theorem Operand.ofValue_of_integer? (h : v.payload.integer? = some n) :
    ofValue s v = pure ⟨.int n, v.matchCount⟩ := by
  have ht : s.number v = v.payload.number := by
    rw [Session.number, Session.target?_of_name? (Value.name?_of_integer? h)]
  rw [ofValue, ht, Payload.number_of_integer? h]
  rfl

/-- Integers are read without a report. -/
theorem Operand.read_of_integer? (h : s.integer? v = some n) :
    ∃ c, read s v = pure ⟨.int n, c⟩ := by
  unfold Session.integer? at h
  unfold read
  cases hv : v.name? with
  | none =>
      rw [hv] at h
      exact ⟨_, ofValue_of_integer? h⟩
  | some z =>
      rw [hv] at h
      show ∃ c, ofVariable s z = _
      rw [ofVariable]
      cases hz : s.lookup z with
      | none =>
          simp only [hz] at h
          cases h
          exact ⟨false, rfl⟩
      | some w =>
          simp only [hz] at h
          exact ⟨_, ofValue_of_integer? h⟩

namespace Operator

variable {op : Operator}

/-! ### Arithmetic -/

/-- One integer or two. -/
inductive Integers : List Operand → Prop
  | one {b : Operand} {j : Int64} (hj : b.num = .int j) : Integers [b]
  | two {a b : Operand} {i j : Int64} (hi : a.num = .int i) (hj : b.num = .int j) : Integers [a, b]

variable {first : Operand} {rest : List Operand}

theorem Integers.rank (h : Integers (first :: rest)) (op : Operator) :
    op.rank (first :: rest) = .int := by
  cases h with
  | one hj => simp [Operator.rank, hj, Rank.of, Rank.join]
  | two hi hj =>
      obtain ⟨-, -, -, -, hr⟩ := op.ints_of_rank ⟨congrArg Rank.of hi, congrArg Rank.of hj⟩
      exact hr

/-- There is nothing to warn of. -/
theorem arithmetic_of_integers (ho : op ≠ .eq ∧ op ≠ .ne) (h : Integers (first :: rest)) :
    op.arithmetic (first :: rest) = op.summed first rest >>= op.outcome first rest .int := by
  have hw : op.warnAbsolute (first :: rest) = pure () := by
    cases h with
    | one hj => simp [warnAbsolute, Operand.isAbsolute, hj, Rank.of]
    | two hi hj => simp [warnAbsolute, Operand.isAbsolute, hi, hj, Rank.of]
  have hm : op.warnMatchCount (first :: rest) = pure () := by
    cases h with
    | one hj => rfl
    | two hi hj => simp [warnMatchCount, ho.1, ho.2]
  rw [arithmetic_cons, h.rank, hw, hm]
  rfl

/-- The sum of integers, if it is a word. -/
theorem summed_integers (ho : op = .add ∨ op = .sub) (h : Integers (first :: rest)) :
    op.summed first rest = pure (Word.checked (op.exactSeconds (first :: rest))) := by
  have hr := h.rank op
  cases h with
  | one hj =>
      rcases ho with rfl | rfl <;>
        simp [summed, hr, hj, Num.toInt, base, exactSum, exactSeconds, combined, summands, Num.pair,
          TimePair.ofWord, TimePair.zero, Word.checkedAdd, Word.checkedSub]
  | two hi hj =>
      rcases ho with rfl | rfl <;>
        simp [summed, hr, hi, hj, Num.toInt, base, exactSum, exactSeconds, combined, summands,
          Num.pair, TimePair.ofWord, Word.checkedAdd, Word.checkedSub]

/-- The integer if it is a word, and the real otherwise. -/
def promoted (w : Option Int64) (f : Float) : Num :=
  match w with
  | some w => .int w
  | none => .real f

theorem outcome_integers (ho : op = .add ∨ op = .sub) (h : Integers (first :: rest))
    (w : Option Int64) :
    op.outcome first rest .int w = pure (.ok (promoted w (op.realSum (first :: rest)))) := by
  cases w with
  | none => cases h <;> rcases ho with rfl | rfl <;> rfl
  | some w =>
      cases h with
      | one hj =>
          rcases ho with rfl | rfl <;> simp [outcome, hj, Num.toInt, base, onInts] <;> rfl
      | two hi hj =>
          rcases ho with rfl | rfl <;> simp [outcome, hi, hj, Num.toInt, base, onInts] <;> rfl

/-- Sums and differences of integers, and negatives of them. -/
theorem arithmetic_sum (ho : op = .add ∨ op = .sub) (h : Integers (first :: rest)) :
    op.arithmetic (first :: rest) = pure (.ok (promoted
      (Word.checked (op.exactSeconds (first :: rest))) (op.realSum (first :: rest)))) := by
  have hn : op ≠ .eq ∧ op ≠ .ne := by rcases ho with rfl | rfl <;> decide
  rw [arithmetic_of_integers hn h, summed_integers ho h, pure_bind, outcome_integers ho h]

/-- Quotients of integers. -/
theorem arithmetic_quotient {a b : Operand} (ha : a.num = .int x) (hb : b.num = .int y) :
    Operator.div.arithmetic [a, b] =
      pure (if y = 0 then .error EvalError.divisionByZero.halt else .ok (.int (x / y))) := by
  have hs : Operator.div.summed a [b] = pure (some 0) := by simp [summed, base]
  rw [arithmetic_of_integers (by decide) (.two ha hb), hs, pure_bind]
  simp only [outcome, ha, hb, Num.toInt, List.head?_cons, pure_bind, base, onInts]
  split <;> rfl

/-! ### Results -/

/-- What an exact integer comes to: itself, if it is a word, and a real otherwise. -/
inductive Exactly (i : Int) (f : Float) : Value → Prop
  | word {w : Int64} (h : w.toInt = i) : Exactly i f (.int w)
  | real (h : ¬Word.Fits i) : Exactly i f (.real f)

theorem exactly_promoted (i : Int) (f : Float) :
    Exactly i f (promoted (Word.checked i) f).toValue := by
  cases h : Word.checked i with
  | none => exact .real fun hf => by cases (Word.checked_of_fits hf).symm.trans h
  | some w => exact .word (Word.checked_eq_some_iff.mp h)

theorem Integers.within_realSum {xs : List Operand} (h : Integers xs) :
    Binary.Within 54 (op.realSum xs) := by
  have timely {a : Operand} {i : Int64} (ha : a.num = .int i) : a.num.Timely := by
    rw [ha]
    trivial
  cases h with
  | one hj => exact Operator.within_realSum (.one _) (by simpa using timely hj)
  | two hi hj => exact Operator.within_realSum (.two _ _) (by simpa using ⟨timely hi, timely hj⟩)

/-- Sums and differences of integers, and negatives of them, leave the session as it is. -/
theorem reduce_sum (ho : op = .add ∨ op = .sub) {args : List Value} {xs : List Operand}
    (hx : args.mapM (Operand.read s) = pure xs) (h : Integers xs) :
    ∃ r, op.reduce args s = .ok r s ∧ Exactly (op.exactSeconds xs) (op.realSum xs) r := by
  have hd : op.reduce args = op.compute fun s => args.mapM (Operand.read s) := by
    rcases ho with rfl | rfl <;> rfl
  have ha : op.arithmetic xs = pure (.ok (promoted (Word.checked (op.exactSeconds xs))
      (op.realSum xs))) := by
    cases h with
    | one hj => exact arithmetic_sum ho (.one hj)
    | two hi hj => exact arithmetic_sum ho (.two hi hj)
  have hv : op.result (promoted (Word.checked (op.exactSeconds xs)) (op.realSum xs)) =
      .ok (promoted (Word.checked (op.exactSeconds xs)) (op.realSum xs)).toValue := by
    cases Word.checked (op.exactSeconds xs) with
    | none => exact result_of_within h.within_realSum
    | some w => rfl
  refine ⟨_, ?_, exactly_promoted _ _⟩
  rw [hd, compute_of_pure hx ha, Except.bind, hv]
  rfl

theorem reduce_quotient {a b : Operand} (hx : [u, v].mapM (Operand.read s) = pure [a, b])
    (ha : a.num = .int x) (hb : b.num = .int y) :
    Operator.div.reduce [u, v] s =
      if y = 0 then .error EvalError.divisionByZero.halt s else .ok (.int (x / y)) s := by
  show Operator.div.compute (fun s => [u, v].mapM (Operand.read s)) s = _
  rw [compute_of_pure hx (arithmetic_quotient ha hb)]
  split <;> rfl

/-- The least word has no quotient by minus one and stays what it is; all other quotients are
exact. -/
theorem toInt_quotient (x y : Int64) : (x / y).toInt =
    if x.toInt = Word.least ∧ y.toInt = -1 then Word.least else x.toInt.tdiv y.toInt := by
  split
  · next h => rw [Int64.toInt_div, h.1, h.2]; rfl
  · next h =>
    by_cases hx : x = Int64.minValue
    · refine Int64.toInt_div_of_ne_right x y fun hy => h ⟨?_, ?_⟩
      · rw [hx]
        rfl
      · rw [hy]
        rfl
    · exact Int64.toInt_div_of_ne_left x y hx

/-- **Sums and quotients of integers.**  The session stays as it is, so nothing is reported.  Sums,
differences and negatives are exact or reals; so are quotients, but for the least word divided by
minus one. -/
theorem integers_exact (hu : s.integer? u = some x) (hv : s.integer? v = some y) :
    (∃ r, Operator.add.reduce [u, v] s = .ok r s ∧
        Exactly (x.toInt + y.toInt) (Binary.ofWord x + Binary.ofWord y) r) ∧
      (∃ r, Operator.sub.reduce [u, v] s = .ok r s ∧
        Exactly (x.toInt - y.toInt) (Binary.ofWord x - Binary.ofWord y) r) ∧
      (∃ r, Operator.add.reduce [v] s = .ok r s ∧ Exactly y.toInt (Binary.ofWord y) r) ∧
      (∃ r, Operator.sub.reduce [v] s = .ok r s ∧ Exactly (-y.toInt) (-Binary.ofWord y) r) ∧
      (y ≠ 0 → ∃ w, Operator.div.reduce [u, v] s = .ok (.int w) s ∧ w.toInt =
        if x.toInt = Word.least ∧ y.toInt = -1 then Word.least else x.toInt.tdiv y.toInt) ∧
      (y = 0 → Operator.div.reduce [u, v] s = .error EvalError.divisionByZero.halt s) := by
  obtain ⟨c, hc⟩ := Operand.read_of_integer? hu
  obtain ⟨d, hd⟩ := Operand.read_of_integer? hv
  have pair : [u, v].mapM (Operand.read s) = pure [⟨.int x, c⟩, ⟨.int y, d⟩] := by simp [hc, hd]
  have single : [v].mapM (Operand.read s) = pure [⟨.int y, d⟩] := by simp [hd]
  have hq := reduce_quotient pair rfl rfl
  refine ⟨reduce_sum (.inl rfl) pair (.two rfl rfl), reduce_sum (.inr rfl) pair (.two rfl rfl),
    ?_, ?_, fun hy => ⟨x / y, ?_, toInt_quotient x y⟩, fun hy => ?_⟩
  · obtain ⟨r, hr, he⟩ := reduce_sum (.inl rfl) single (.one rfl)
    refine ⟨r, hr, ?_⟩
    rwa [exactSeconds, combined, if_neg (by decide), summands, TimePair.zero, Int64.toInt_zero,
      Int.zero_add] at he
  · obtain ⟨r, hr, he⟩ := reduce_sum (.inr rfl) single (.one rfl)
    refine ⟨r, hr, ?_⟩
    rwa [exactSeconds, combined, if_pos rfl, summands, TimePair.zero, Int64.toInt_zero,
      Int.zero_sub] at he
  · rw [hq, if_neg hy]
  · rw [hq, if_pos hy]

/-- The greatest integer in a variable, and two in a text. -/
theorem integers_exact_atTheEnds :
    (∃ r, Operator.add.reduce [.name "x", .text " 2 "]
        (Session.assign {} "x" (.int 9223372036854775807)) =
          .ok r (Session.assign {} "x" (.int 9223372036854775807)) ∧
        Exactly (9223372036854775807 + 2) (Binary.ofWord 9223372036854775807 + Binary.ofWord 2) r) ∧
      ∃ w, Operator.div.reduce [.name "x", .text " 2 "]
        (Session.assign {} "x" (.int 9223372036854775807)) =
          .ok (.int w) (Session.assign {} "x" (.int 9223372036854775807)) ∧
        w.toInt = 4611686018427387903 := by
  obtain ⟨ha, -, -, -, hd, -⟩ := integers_exact
    (s := Session.assign {} "x" (.int 9223372036854775807)) (u := .name "x") (v := .text " 2 ")
    (x := 9223372036854775807) (y := 2) rfl (by with_unfolding_all decide)
  exact ⟨ha, hd (by decide)⟩

/-- The least integer divided by minus one is given out as itself, though no word is that quotient,
and a real would be the negative of it. -/
theorem least_not_negated :
    Operator.div.reduce [.int (-9223372036854775808), .int (-1)] {} =
        .ok (.int (-9223372036854775808)) {} ∧
      (-9223372036854775808 : Int).tdiv (-1) = 9223372036854775808 ∧
      ¬Word.Fits 9223372036854775808 :=
  ⟨by with_unfolding_all rfl, by decide, by decide⟩

end Operator

end ExprEngine
