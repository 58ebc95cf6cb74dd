import ExprEngine.Proofs.Number.Magnitude
import ExprEngine.Proofs.Operator.Computation
import ExprEngine.Proofs.Time.Canonical

/-!
# Sums and comparisons of times

Integers count seconds where they meet times.  A sum of such numbers goes by its whole seconds: if
they are no word, it is computed on reals, which are finite then; if they are, it is a time pair.
The microseconds play no part in that choice, so at the ends of the words a pair may come to be
wrapped around (`Summed.wrapped`).

A comparison goes by the sign of the difference, which wraps around too.  It is the comparison of
the exact values where that difference is exact (`Num.Near`).

* `Operator.sum_of_times`: what a sum or a difference of such numbers is.
* `Operator.comparison_of_times`: what a comparison says.
-/

namespace ExprEngine

namespace Num

/-- An integer or a normal time. -/
def Timely : Num → Prop
  | int _ => True
  | time t _ => t.Normal
  | real _ => False

instance (n : Num) : Decidable n.Timely :=
  match n with
  | int _ => .isTrue trivial
  | time t _ => inferInstanceAs (Decidable t.Normal)
  | real _ => .isFalse id

/-- The number as a time; an integer counts seconds. -/
def pair : Num → TimePair
  | int n => .ofWord n
  | time t _ => t
  | real _ => .zero

/-- The exact value in microseconds. -/
def total (n : Num) : Int :=
  n.pair.total

/-- The difference whose sign a comparison looks at: exact between integers, that of time pairs
otherwise. -/
def difference : Num → Num → Int
  | int i, int j => (int i).total - (int j).total
  | x, y => (x.pair.sub y.pair).total

/-- The difference of two numbers is exact: they are integers, or near enough to each other. -/
def Near : Num → Num → Prop
  | int _, int _ => True
  | x, y => Word.Fits (x.pair.sec.toInt - y.pair.sec.toInt) ∧ TimePair.Fits (x.total - y.total)

variable {n x y : Num}

theorem Timely.pair_normal (h : n.Timely) : n.pair.Normal := by
  cases n with
  | int w => exact TimePair.ofWord_normal w
  | time t kind => exact h
  | real f => exact h.elim

theorem Timely.value_toInt (h : n.Timely) : n.toInt.value = n.pair.sec := by
  cases n with
  | int w => rfl
  | time t kind => rfl
  | real f => exact h.elim

theorem Timely.value_toTime (h : n.Timely) : n.toTime.value = n.pair := by
  cases n with
  | int w => rfl
  | time t kind => rfl
  | real f => exact h.elim

theorem Timely.within_toReal (h : n.Timely) : Binary.Within 52 n.toReal := by
  cases n with
  | int w => exact (Binary.within_ofWord w).mono (by decide)
  | time t kind => exact Binary.within_toReal t
  | real f => exact h.elim

theorem difference_of_near (hx : x.Timely) (hy : y.Timely) (h : x.Near y) :
    x.difference y = x.total - y.total := by
  have hs (hw : Word.Fits (x.pair.sec.toInt - y.pair.sec.toInt) ∧
      TimePair.Fits (x.total - y.total)) : (x.pair.sub y.pair).total = x.total - y.total :=
    (TimePair.total_sub hx.pair_normal hy.pair_normal hw.1).trans (TimePair.wrapped_of_fits hw.2)
  match x, y with
  | int _, int _ => exact rfl
  | int _, time .. | time .., int _ | time .., time .. => exact hs h
  | real _, _ => exact hx.elim
  | int _, real _ | time .., real _ => exact hy.elim

end Num

namespace Operator

open TimePair

variable {op : Operator}

/-- A finite real is a result. -/
theorem result_of_within {k : Int} {f : Float} (h : Binary.Within k f) :
    op.result (.real f) = .ok (.real f) := by
  rw [result, h.not_isInf]
  rfl

/-! ### Sums -/

/-- The sum of two exact values, or their difference. -/
def combined (op : Operator) (i j : Int) : Int :=
  if op = .sub then i - j else i + j

/-- The two numbers that a sum is made of; a single operand is added to nothing. -/
def summands : List Operand → TimePair × TimePair
  | [y] => (.zero, y.num.pair)
  | [x, y] => (x.num.pair, y.num.pair)
  | _ => (.zero, .zero)

/-- The whole seconds of a sum, before its microseconds are looked at. -/
def exactSeconds (op : Operator) (operands : List Operand) : Int :=
  op.combined (summands operands).1.sec.toInt (summands operands).2.sec.toInt

/-- The exact sum in microseconds. -/
def exactTotal (op : Operator) (operands : List Operand) : Int :=
  op.combined (summands operands).1.total (summands operands).2.total

/-- The time pair of a sum. -/
def pairSum (op : Operator) (a b : TimePair) : TimePair :=
  if op = .sub then a.sub b else a.add b

/-- The sum on reals. -/
def realSum (op : Operator) : List Operand → Float
  | [y] => if op = .sub then -y.num.toReal else y.num.toReal
  | [x, y] => if op = .sub then x.num.toReal - y.num.toReal else x.num.toReal + y.num.toReal
  | _ => 0.0

/-- A difference whose seconds are no word though the exact one's are: the first operand is negative
and less than a second, and the other has the least seconds that there are. -/
def BarelyFits (op : Operator) (operands : List Operand) : Prop :=
  op = .sub ∧ (summands operands).1.sec = 0 ∧ (summands operands).1.usec.toInt < 0 ∧
    (summands operands).2.sec.toInt = Word.least

/-- What a sum of times of a kind may be. -/
inductive Summed (op : Operator) (kind : TimeKind) (operands : List Operand) : Value → Prop
  /-- The exact sum. -/
  | exact {t : TimePair} (hs : Word.Fits (op.exactSeconds operands))
    (hf : Fits (op.exactTotal operands)) (hn : t.Normal) (ht : t.total = op.exactTotal operands) :
    Summed op kind operands (.time t kind)
  /-- The exact sum is out of reach because of its microseconds. -/
  | wrapped {t : TimePair} (hs : Word.Fits (op.exactSeconds operands))
    (hf : ¬Fits (op.exactTotal operands)) (hn : t.Normal)
    (ht : t.total = TimePair.wrapped (op.exactTotal operands)) :
    Summed op kind operands (.time t kind)
  /-- The exact sum is out of reach because of its seconds, or barely not. -/
  | promoted (hs : ¬Word.Fits (op.exactSeconds operands))
    (hf : Fits (op.exactTotal operands) → op.BarelyFits operands) :
    Summed op kind operands (.real (op.realSum operands))

/-- One operand or two. -/
inductive Shaped : List Operand → Prop
  | one (y : Operand) : Shaped [y]
  | two (x y : Operand) : Shaped [x, y]

theorem shaped_of_length {xs : List Operand} (h : xs.length = 1 ∨ xs.length = 2) : Shaped xs := by
  match xs, h with
  | [y], _ => exact .one y
  | [x, y], _ => exact .two x y

variable {xs : List Operand} {kind : TimeKind}

theorem value_summed (ho : op = .add ∨ op = .sub) {first : Operand} {rest : List Operand}
    (hc : Shaped (first :: rest)) (ht : ∀ x ∈ first :: rest, x.num.Timely)
    (hr : op.rank (first :: rest) = .time kind) :
    (op.summed first rest).value = Word.checked (op.exactSeconds (first :: rest)) := by
  have hf := (ht first (List.mem_cons_self ..)).value_toInt
  cases hc with
  | one y =>
      rcases ho with rfl | rfl <;>
        simp [summed, hr, hf, base, exactSum, exactSeconds, combined, summands, Word.checkedAdd,
          Word.checkedSub, TimePair.zero]
  | two x y =>
      have hy := (ht y (by simp)).value_toInt
      rcases ho with rfl | rfl <;>
        simp [summed, hr, hf, hy, base, exactSum, exactSeconds, combined, summands, Word.checkedAdd,
          Word.checkedSub]

theorem outcome_some (ho : op = .add ∨ op = .sub) {first : Operand} {rest : List Operand}
    (hc : Shaped (first :: rest)) (ht : ∀ x ∈ first :: rest, x.num.Timely) (w : Int64) :
    (op.outcome first rest (.time kind) (some w)).value =
      .ok (.time (op.pairSum (summands (first :: rest)).1 (summands (first :: rest)).2) kind) := by
  have hf := (ht first (List.mem_cons_self ..)).value_toTime
  cases hc with
  | one y =>
      rcases ho with rfl | rfl <;> simp [outcome, hf, base, onTimes, summands, pairSum]
  | two x y =>
      have hy := (ht y (by simp)).value_toTime
      rcases ho with rfl | rfl <;> simp [outcome, hf, hy, base, onTimes, summands, pairSum]

theorem outcome_none (ho : op = .add ∨ op = .sub) {first : Operand} {rest : List Operand}
    (hc : Shaped (first :: rest)) :
    (op.outcome first rest (.time kind) none).value = .ok (.real (op.realSum (first :: rest))) := by
  cases hc with
  | one y => rcases ho with rfl | rfl <;> rfl
  | two x y => rcases ho with rfl | rfl <;> rfl

theorem within_realSum (hc : Shaped xs) (ht : ∀ x ∈ xs, x.num.Timely) :
    Binary.Within 54 (op.realSum xs) := by
  cases hc with
  | one y =>
      have hy : Binary.Within 54 y.num.toReal := (ht y (by simp)).within_toReal.mono (by decide)
      show Binary.Within 54 (if op = .sub then -y.num.toReal else y.num.toReal)
      split
      · exact hy.neg (by decide) (by decide)
      · exact hy
  | two x y =>
      have hx := (ht x (by simp)).within_toReal
      have hy := (ht y (by simp)).within_toReal
      show Binary.Within (52 + 2) (if op = .sub then x.num.toReal - y.num.toReal
        else x.num.toReal + y.num.toReal)
      split
      · exact hx.sub (by decide) (by decide) hy
      · exact hx.add (by decide) (by decide) hy

theorem summands_normal (ht : ∀ x ∈ xs, x.num.Timely) :
    (summands xs).1.Normal ∧ (summands xs).2.Normal := by
  unfold summands
  split
  · exact ⟨zero_normal, (ht _ (by simp)).pair_normal⟩
  · exact ⟨(ht _ (by simp)).pair_normal, (ht _ (by simp)).pair_normal⟩
  · exact ⟨zero_normal, zero_normal⟩

/-- Seconds that are no word leave the exact sum out of reach, but for one borrow. -/
theorem barelyFits (ho : op = .add ∨ op = .sub) (ht : ∀ x ∈ xs, x.num.Timely)
    (hs : ¬Word.Fits (op.exactSeconds xs)) (hf : Fits (op.exactTotal xs)) : op.BarelyFits xs := by
  obtain ⟨ha, hb⟩ := summands_normal ht
  rcases ho with rfl | rfl
  · exact absurd (fits_add ha hb hf) hs
  · exact ⟨rfl, Decidable.not_not.mp fun h => hs (fits_sub ha hb hf h)⟩

theorem pairSum_normal (a b : TimePair) : (op.pairSum a b).Normal := by
  unfold pairSum
  split
  · exact sub_normal a b
  · exact add_normal a b

theorem total_pairSum {a b : TimePair} (ha : a.Normal) (hb : b.Normal)
    (h : Word.Fits (op.combined a.sec.toInt b.sec.toInt)) :
    (op.pairSum a b).total = TimePair.wrapped (op.combined a.total b.total) := by
  unfold pairSum combined at *
  split
  · next ho => exact total_sub ha hb (by rwa [if_pos ho] at h)
  · next ho => exact total_add ha hb (by rwa [if_neg ho] at h)

/-- A sum whose seconds are a word is exact or wrapped around. -/
theorem summed_pairSum (ht : ∀ x ∈ xs, x.num.Timely) (hs : Word.Fits (op.exactSeconds xs)) :
    Summed op kind xs (.time (op.pairSum (summands xs).1 (summands xs).2) kind) := by
  obtain ⟨ha, hb⟩ := summands_normal ht
  have hv : (op.pairSum (summands xs).1 (summands xs).2).total =
    TimePair.wrapped (op.exactTotal xs) := total_pairSum ha hb hs
  by_cases hf : Fits (op.exactTotal xs)
  · exact .exact hs hf (pairSum_normal _ _) (hv.trans (wrapped_of_fits hf))
  · exact .wrapped hs hf (pairSum_normal _ _) hv

/-- **A sum or difference of times**, or the negative of one. -/
theorem sum_of_times (ho : op = .add ∨ op = .sub) {args : List Value} {s : Session}
    (hx : (args.mapM (Operand.read s)).value = xs) (hc : xs.length = 1 ∨ xs.length = 2)
    (ht : ∀ x ∈ xs, x.num.Timely) (hr : op.rank xs = .time kind) :
    ∃ v log, op.reduce args s = .ok v (s.record log) ∧ Summed op kind xs v := by
  have hd : op.reduce args = op.compute fun s => args.mapM (Operand.read s) := by
    rcases ho with rfl | rfl <;> rfl
  suffices hv : ∃ v, (op.evaluated (args.mapM (Operand.read s))).value = .ok v ∧
      Summed op kind xs v by
    obtain ⟨v, hv, hs⟩ := hv
    refine ⟨v, (op.evaluated (args.mapM (Operand.read s))).log, ?_, hs⟩
    rw [hd, compute_apply, hv]
    rfl
  have hsh := shaped_of_length hc
  rw [value_evaluated, hx]
  cases xs with
  | nil => cases hsh
  | cons first rest =>
      rw [value_arithmetic, hr, value_summed ho hsh ht hr]
      by_cases hs : Word.Fits (op.exactSeconds (first :: rest))
      · rw [Word.checked_of_fits hs, outcome_some ho hsh ht]
        exact ⟨_, rfl, summed_pairSum ht hs⟩
      · rw [Word.checked_of_not_fits hs, outcome_none ho hsh]
        refine ⟨.real (op.realSum (first :: rest)), ?_, .promoted hs (barelyFits ho ht hs)⟩
        simp only [Except.bind, result_of_within (within_realSum hsh ht)]
        rfl

/-- Three quarters of a second more than two seconds and a half. -/
theorem sum_of_times_carried :
    ∃ v log, Operator.add.reduce [.time ⟨2, 500000⟩ .decimal, .time ⟨0, 750000⟩ .duration] {} =
        .ok v (Session.record {} log) ∧
      Summed .add .duration
        [⟨.time ⟨2, 500000⟩ .decimal, false⟩, ⟨.time ⟨0, 750000⟩ .duration, false⟩] v :=
  sum_of_times (.inl rfl) rfl (.inr rfl) (by decide) rfl

/-- Half a second more than the greatest seconds and a half is no exact sum, and no real. -/
theorem sum_wraps_around :
    Operator.add.reduce [.time ⟨9223372036854775807, 500000⟩ .decimal,
        .time ⟨0, 500000⟩ .decimal] {} = .ok (.time ⟨-9223372036854775808, 0⟩ .decimal) {} ∧
      TimePair.total ⟨-9223372036854775808, 0⟩ ≠
        TimePair.total ⟨9223372036854775807, 500000⟩ + TimePair.total ⟨0, 500000⟩ :=
  ⟨by with_unfolding_all rfl, by decide⟩

/-! ### Comparisons -/

/-- The relation that a comparison asks for. -/
def relates (op : Operator) (i j : Int) : Prop :=
  match op with
  | .lt => i < j
  | .gt => j < i
  | .le => i ≤ j
  | .ge => j ≤ i
  | .eq => i = j
  | .ne => i ≠ j
  | _ => False

/-- The operators that compare numbers. -/
def comparisons : List Operator :=
  [.lt, .gt, .le, .ge, .eq, .ne]

theorem holds_compare (ho : op ∈ comparisons) (i j : Int) :
    op.holds (compare i j) = true ↔ op.relates i j := by
  simp only [compare, compareOfLessAndEq]
  simp only [comparisons, List.mem_cons, List.not_mem_nil, or_false] at ho
  split
  · rcases ho with rfl | rfl | rfl | rfl | rfl | rfl <;> simp [holds, relates] <;> omega
  · split
    · rcases ho with rfl | rfl | rfl | rfl | rfl | rfl <;> simp [holds, relates] <;> omega
    · rcases ho with rfl | rfl | rfl | rfl | rfl | rfl <;> simp [holds, relates] <;> omega

theorem relates_sub {i j : Int} : op.relates (i - j) 0 ↔ op.relates i j := by
  cases op <;> simp only [relates] <;> omega

/-- Integers stand in the relation that their seconds stand in. -/
theorem relates_total_int {i j : Int64} :
    op.relates i.toInt j.toInt ↔ op.relates (Num.total (.int i)) (Num.total (.int j)) := by
  have ht (w : Int64) : Num.total (.int w) = w.toInt * second := by
    simp [Num.total, Num.pair, ofWord, TimePair.total]
  rw [ht, ht]
  cases op <;> simp only [relates, second] <;> omega

/-- A comparison takes no sum. -/
theorem summed_compare (ho : op ∈ comparisons) (first : Operand) (rest : List Operand) :
    (op.summed first rest).value = some 0 := by
  have hb : ¬(op.base = .add ∨ op.base = .sub) := by
    revert op
    decide
  rw [summed, if_neg fun h => hb h.2]
  rfl

theorem join_cases (a b : Rank) : a.join b = a ∨ a.join b = b := by
  unfold Rank.join
  split
  · exact .inr rfl
  · exact .inl rfl

/-- Only integers have the rank of integers. -/
theorem eq_int_of_join {a b : Rank} (h : a.join b = .int) : a = .int ∧ b = .int := by
  have zero {r : Rank} (hr : r.level ≤ 0) : r = .int := by
    cases r with
    | int => rfl
    | time kind => cases kind <;> simp [Rank.level] at hr
    | real => simp [Rank.level] at hr
  unfold Rank.join at h
  split at h
  · next hl => exact ⟨zero (by rw [h] at hl; exact Nat.le_of_lt hl), h⟩
  · next hl => exact ⟨h, zero (by rw [h] at hl; exact Nat.not_lt.mp hl)⟩

theorem Timely.rank_ne_real {n : Num} (h : n.Timely) : Rank.of n ≠ .real := by
  cases n with
  | real f => exact h.elim
  | _ => nofun

theorem rank_pair (x y : Operand) : op.rank [x, y] = .time .duration ∨
    op.rank [x, y] = (Rank.int.join (Rank.of x.num)).join (Rank.of y.num) := by
  unfold rank
  dsimp only
  split
  · exact .inl rfl
  · exact .inr rfl

/-- Numbers that are not both integers have the rank of a time. -/
theorem rank_of_timely (op : Operator) {x y : Operand} (hx : x.num.Timely) (hy : y.num.Timely)
    (h : ¬(Rank.of x.num = .int ∧ Rank.of y.num = .int)) : ∃ kind, op.rank [x, y] = .time kind := by
  obtain hr | hr := op.rank_pair x y
  · exact ⟨_, hr⟩
  · have hn : op.rank [x, y] ≠ .real := by
      rw [hr]
      obtain hj | hj := join_cases (Rank.int.join (Rank.of x.num)) (Rank.of y.num) <;> rw [hj]
      · obtain hk | hk := join_cases .int (Rank.of x.num) <;> rw [hk]
        · nofun
        · exact Timely.rank_ne_real hx
      · exact Timely.rank_ne_real hy
    cases hk : op.rank [x, y] with
    | int =>
        obtain ⟨hj, hb⟩ := eq_int_of_join (hr.symm.trans hk)
        exact absurd ⟨(eq_int_of_join hj).2, hb⟩ h
    | time kind => exact ⟨kind, rfl⟩
    | real => exact absurd hk hn

theorem exists_int {n : Num} (h : Rank.of n = .int) : ∃ i, n = .int i := by
  cases n with
  | int i => exact ⟨i, rfl⟩
  | time t kind => cases h
  | real f => cases h

theorem ints_of_rank (op : Operator) {x y : Operand}
    (h : Rank.of x.num = .int ∧ Rank.of y.num = .int) :
    ∃ i j, x.num = .int i ∧ y.num = .int j ∧ op.rank [x, y] = .int := by
  obtain ⟨i, hi⟩ := exists_int h.1
  obtain ⟨j, hj⟩ := exists_int h.2
  refine ⟨i, j, hi, hj, ?_⟩
  simp [rank, Operand.isAbsolute, hi, hj, Rank.of, Rank.join]

theorem difference_of_rank {x y : Num} (h : ¬(Rank.of x = .int ∧ Rank.of y = .int)) :
    x.difference y = (x.pair.sub y.pair).total := by
  unfold Num.difference
  split
  · exact absurd ⟨rfl, rfl⟩ h
  · rfl

theorem outcome_compare_ints (ho : op ∈ comparisons) {x y : Operand} {i j : Int64}
    (hi : x.num = .int i) (hj : y.num = .int j) (w : Int64) :
    (op.outcome x [y] .int (some w)).value =
      .ok (truthNum (op.holds (compare i.toInt j.toInt))) := by
  have hk (n : Num) : (Except.ok n).mapError EvalError.halt = .ok n := rfl
  simp only [comparisons, List.mem_cons, List.not_mem_nil, or_false] at ho
  rcases ho with rfl | rfl | rfl | rfl | rfl | rfl <;>
    simp [outcome, hi, hj, base, onInts, Num.toInt, hk, Word.order]

theorem outcome_compare_times (ho : op ∈ comparisons) {x y : Operand} (hx : x.num.Timely)
    (hy : y.num.Timely) (w : Int64) :
    (op.outcome x [y] (.time kind) (some w)).value =
      .ok (truthNum (op.holds (x.num.pair.sub y.num.pair).sign)) := by
  simp only [comparisons, List.mem_cons, List.not_mem_nil, or_false] at ho
  rcases ho with rfl | rfl | rfl | rfl | rfl | rfl <;>
    simp [outcome, base, onTimes, hx.value_toTime, hy.value_toTime]

/-- What a comparison of integers or times comes to. -/
theorem arithmetic_compare (ho : op ∈ comparisons) {x y : Operand} (hx : x.num.Timely)
    (hy : y.num.Timely) : ∃ b, (op.arithmetic [x, y]).value = .ok (truthNum b) ∧
      (b = true ↔ op.relates (x.num.difference y.num) 0) := by
  rw [value_arithmetic, summed_compare ho]
  by_cases h : Rank.of x.num = .int ∧ Rank.of y.num = .int
  · obtain ⟨i, j, hi, hj, hr⟩ := op.ints_of_rank h
    refine ⟨op.holds (compare i.toInt j.toInt), ?_, ?_⟩
    · rw [hr, outcome_compare_ints ho hi hj]
    · rw [hi, hj, holds_compare ho, relates_total_int, ← relates_sub]
      rfl
  · obtain ⟨kind, hr⟩ := op.rank_of_timely hx hy h
    refine ⟨op.holds (x.num.pair.sub y.num.pair).sign, ?_, ?_⟩
    · rw [hr, outcome_compare_times ho hx hy]
    · rw [difference_of_rank h, sign_eq (sub_normal _ _), holds_compare ho]

/-- **A comparison of times** and integers. -/
theorem comparison_of_times (ho : op ∈ comparisons) {u v : Value} {s : Session} {x y : Operand}
    (hu : (Operand.read s u).value = x) (hv : (Operand.read s v).value = y) (hx : x.num.Timely)
    (hy : y.num.Timely) : ∃ b log, op.reduce [u, v] s = .ok (.bool b) (s.record log) ∧
      (b = true ↔ op.relates (x.num.difference y.num) 0) ∧
      (x.num.Near y.num → (b = true ↔ op.relates x.num.total y.num.total)) := by
  have hd : op.reduce [u, v] = op.compute fun s => [u, v].mapM (Operand.read s) := by
    simp only [comparisons, List.mem_cons, List.not_mem_nil, or_false] at ho
    rcases ho with rfl | rfl | rfl | rfl | rfl | rfl <;> rfl
  have hr : ([u, v].mapM (Operand.read s)).value = [x, y] := by
    subst hu hv
    rfl
  obtain ⟨b, hb, hw⟩ := arithmetic_compare ho hx hy
  refine ⟨b, (op.evaluated ([u, v].mapM (Operand.read s))).log, ?_, hw, fun hn => ?_⟩
  · rw [hd, compute_apply, value_evaluated, hr, hb]
    rfl
  · rw [hw, Num.difference_of_near hx hy hn, relates_sub]

/-- The integer one is more than a tenth less than one. -/
theorem comparison_of_times_mixed :
    ∃ b log, Operator.gt.reduce [.int 1, .time ⟨0, 900000⟩ .decimal] {} =
        .ok (.bool b) (Session.record {} log) ∧
      (b = true ↔ Operator.gt.relates
        (Num.difference (.int 1) (.time ⟨0, 900000⟩ .decimal)) 0) ∧
      (Num.Near (.int 1) (.time ⟨0, 900000⟩ .decimal) → (b = true ↔ Operator.gt.relates
        (Num.total (.int 1)) (Num.total (.time ⟨0, 900000⟩ .decimal)))) :=
  comparison_of_times (by decide) rfl rfl (by decide) (by decide)

/-- The greatest integer is more than minus one second, but is not said to be. -/
theorem greatest_not_greater :
    Operator.gt.reduce [.int 9223372036854775807, .time ⟨-1, 0⟩ .decimal] {} = .ok (.int 0) {} ∧
      Num.total (.time ⟨-1, 0⟩ .decimal) < Num.total (.int 9223372036854775807) :=
  ⟨by with_unfolding_all rfl, by decide⟩

end Operator

end ExprEngine
