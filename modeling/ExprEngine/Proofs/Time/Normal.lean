import ExprEngine.Time.Pair

/-!
# Normal time pairs

Normalising borrows seconds for microseconds that are too few and then carries those that are too
many into seconds.  Whatever the seconds and the microseconds, a normal pair comes of it, also where
the seconds wrap around on the way.

Its exact value is the one that was given, if the whole seconds of that are a word (`Fits`).  A sum
or difference whose seconds are a word may still miss that, by what its microseconds carry or borrow
at the ends of the words; then its value is off by all the seconds that words count (`wrapped`).

* `normal_normal`: a normal pair.
* `total_normal`: of the value that was given, or of that value wrapped around.
* `total_add`, `total_sub`: what sums and differences of normal pairs are worth.
* `sign_eq`: the sign of a normal pair is that of its exact value.
-/

namespace ExprEngine

namespace Word

/-- The integer is the value of a word. -/
def Fits (i : Int) : Prop :=
  least ≤ i ∧ i ≤ greatest

instance (i : Int) : Decidable (Fits i) :=
  inferInstanceAs (Decidable (_ ∧ _))

theorem fits_toInt (w : Int64) : Fits w.toInt :=
  ⟨w.le_toInt, w.toInt_le⟩

theorem checked_of_fits {i : Int} (h : Fits i) : checked i = some (Int64.ofInt i) :=
  if_pos h

theorem toInt_ofInt {i : Int} (h : Fits i) : (Int64.ofInt i).toInt = i :=
  checked_eq_some_iff.mp (if_pos h)

theorem checked_of_not_fits {i : Int} (h : ¬Fits i) : checked i = none :=
  if_neg h

/-- All the words there are. -/
abbrev count : Int := 0x10000000000000000

theorem size_eq : (Int64.size : Int) = count :=
  rfl

theorem toInt_add_eq {x y : Int64} (h : Fits (x.toInt + y.toInt)) :
    (x + y).toInt = x.toInt + y.toInt := by
  obtain ⟨hl, hu⟩ := h
  have hs := size_eq
  rw [Int64.toInt_add]
  simp only [least, greatest, count] at hl hu hs
  apply Int.bmod_eq_of_le <;> omega

theorem toInt_sub_eq {x y : Int64} (h : Fits (x.toInt - y.toInt)) :
    (x - y).toInt = x.toInt - y.toInt := by
  obtain ⟨hl, hu⟩ := h
  have hs := size_eq
  rw [Int64.toInt_sub]
  simp only [least, greatest, count] at hl hu hs
  apply Int.bmod_eq_of_le <;> omega

/-- Only the least word has no negative. -/
theorem toInt_neg_eq {w : Int64} (h : least < w.toInt) : (-w).toInt = -w.toInt := by
  have hu := (fits_toInt w).2
  rw [← Int64.zero_sub, toInt_sub_eq, Int64.toInt_zero, Int.zero_sub]
  rw [Int64.toInt_zero]
  constructor <;> simp only [least, greatest] at * <;> omega

/-- Beyond the greatest word the words start over. -/
theorem toInt_succ (w : Int64) :
    (w + 1).toInt = if w.toInt = greatest then least else w.toInt + 1 := by
  obtain ⟨hl, hu⟩ := fits_toInt w
  split
  · next h => rw [Int64.toInt_add, h]; rfl
  · next h =>
    refine toInt_add_eq (y := 1) ⟨?_, ?_⟩ <;> rw [Int64.toInt_one] <;>
      simp only [least, greatest] at * <;> omega

/-- Below the least word they go on from the other end. -/
theorem toInt_pred (w : Int64) :
    (w - 1).toInt = if w.toInt = least then greatest else w.toInt - 1 := by
  obtain ⟨hl, hu⟩ := fits_toInt w
  split
  · next h => rw [Int64.toInt_sub, h]; rfl
  · next h =>
    refine toInt_sub_eq (y := 1) ⟨?_, ?_⟩ <;> rw [Int64.toInt_one] <;>
      simp only [least, greatest] at * <;> omega

end Word

namespace TimePair

open Word

/-! ### Borrowing and carrying -/

/-- The fewest microseconds that go with some seconds. -/
def fewest (sec : Int64) : Int :=
  if 0 < sec.toInt then 0 else -(second - 1)

/-- The most microseconds that go with some seconds. -/
def most (sec : Int64) : Int :=
  if sec.toInt < 0 then 0 else second - 1

theorem fewest_le_borrow (sec : Int64) (usec : Int) :
    fewest (borrow sec usec).1 ≤ (borrow sec usec).2 := by
  fun_induction borrow sec usec with
  | case1 sec usec h ih => exact ih
  | case2 sec usec h => exact Int.not_lt.mp h

/-- Carrying ends with microseconds that are not too many, and leaves enough of them. -/
theorem carry_between {sec : Int64} {usec : Int} (h : fewest sec ≤ usec) :
    fewest (carry sec usec).1 ≤ (carry sec usec).2 ∧
      (carry sec usec).2 ≤ most (carry sec usec).1 := by
  fun_induction carry sec usec with
  | case1 sec usec hc ih =>
    refine ih ?_
    have hs := toInt_succ sec
    unfold fewest at h ⊢
    simp only [second, least, greatest] at *
    split at hc <;> split at hs <;> split <;> omega
  | case2 sec usec hc => exact ⟨h, Int.not_lt.mp hc⟩

/-- What is left to pack when borrowing and carrying are done. -/
def parts (sec : Int64) (usec : Int) : Int64 × Int :=
  carry (borrow sec usec).1 (borrow sec usec).2

theorem parts_between (sec : Int64) (usec : Int) :
    fewest (parts sec usec).1 ≤ (parts sec usec).2 ∧
      (parts sec usec).2 ≤ most (parts sec usec).1 :=
  carry_between (fewest_le_borrow sec usec)

theorem sec_normal (sec : Int64) (usec : Int) : (normal sec usec).sec = (parts sec usec).1 :=
  rfl

/-- Packing loses nothing. -/
theorem usec_normal (sec : Int64) (usec : Int) :
    (normal sec usec).usec.toInt = (parts sec usec).2 := by
  obtain ⟨hl, hu⟩ := parts_between sec usec
  unfold fewest most at *
  simp only [second] at *
  have hf : Word.Fits (parts sec usec).2 := by
    constructor <;> simp only [least, greatest] <;> split at hl <;> split at hu <;> omega
  exact toInt_ofInt hf

/-- **A normal pair**, whatever is normalised. -/
theorem normal_normal (sec : Int64) (usec : Int) : (normal sec usec).Normal := by
  obtain ⟨hl, hu⟩ := parts_between sec usec
  rw [Normal, sec_normal, usec_normal]
  unfold fewest most at *
  simp only [second] at *
  refine ⟨?_, ?_, fun h => ?_, fun h => ?_⟩ <;> split at hl <;> split at hu <;> omega

theorem normalize_normal (t : TimePair) : t.normalize.Normal :=
  normal_normal _ _

theorem add_normal (a b : TimePair) : (a.add b).Normal :=
  normal_normal _ _

theorem sub_normal (a b : TimePair) : (a.sub b).Normal :=
  normal_normal _ _

theorem ofWord_normal (w : Int64) : (ofWord w).Normal := by
  simp [ofWord, Normal, second]

theorem zero_normal : zero.Normal := by
  decide

/-! ### Exact values -/

/-- The whole seconds of an exact value are a word. -/
def Fits (total : Int) : Prop :=
  Word.Fits (total.tdiv second)

instance (total : Int) : Decidable (Fits total) :=
  inferInstanceAs (Decidable (Word.Fits _))

/-- An exact value, or what is left of it once its seconds have wrapped around the ends of the
words. -/
def wrapped (total : Int) : Int :=
  if greatest < total.tdiv second then total - count * second
  else if total.tdiv second < least then total + count * second
  else total

/-- Division by seconds leaves less than a second, with the sign of what is divided. -/
theorem tdiv_second (total : Int) :
    second * total.tdiv second + total.tmod second = total ∧
      -second < total.tmod second ∧ total.tmod second < second ∧
      (0 ≤ total → 0 ≤ total.tmod second) ∧ (total ≤ 0 → total.tmod second ≤ 0) := by
  refine ⟨Int.mul_tdiv_add_tmod total second, ?_, Int.tmod_lt_of_pos total (by decide),
    Int.tmod_nonneg second, fun h => ?_⟩
  · have h := Int.tmod_lt_of_pos (-total) (b := second) (by decide)
    rw [Int.neg_tmod] at h
    omega
  · have h := Int.tmod_nonneg second (Int.neg_nonneg_of_nonpos h)
    rw [Int.neg_tmod] at h
    omega

theorem le_tdiv_iff {total n : Int} (hn : n < 0) :
    n ≤ total.tdiv second ↔ (n - 1) * second < total := by
  obtain ⟨h, hl, hu, hp, hm⟩ := tdiv_second total
  simp only [second] at *
  constructor <;> intro <;> omega

theorem tdiv_le_iff {total n : Int} (hn : 0 < n) :
    total.tdiv second ≤ n ↔ total < (n + 1) * second := by
  obtain ⟨h, hl, hu, hp, hm⟩ := tdiv_second total
  simp only [second] at *
  constructor <;> intro <;> omega

/-- The exact values whose seconds are words lie between two bounds. -/
theorem fits_iff {total : Int} :
    Fits total ↔ (least - 1) * second < total ∧ total < (greatest + 1) * second :=
  and_congr (le_tdiv_iff (by decide)) (tdiv_le_iff (by decide))

theorem wrapped_of_fits {total : Int} (h : Fits total) : wrapped total = total := by
  rw [wrapped, if_neg (Int.not_lt.mpr h.2), if_neg (Int.not_lt.mpr h.1)]

theorem wrapped_above {total : Int} (h : (greatest + 1) * second ≤ total) :
    wrapped total = total - count * second :=
  if_pos (Int.not_le.mp fun hu => Int.not_lt.mpr h ((tdiv_le_iff (by decide)).mp hu))

theorem wrapped_below {total : Int} (h : total ≤ (least - 1) * second) :
    wrapped total = total + count * second := by
  have hl : total.tdiv second < least :=
    Int.not_le.mp fun hl => Int.not_lt.mpr h ((le_tdiv_iff (by decide)).mp hl)
  rw [wrapped, if_neg, if_pos hl]
  simp only [least, greatest] at *
  omega

/-- Exactly the values in reach are kept. -/
theorem wrapped_eq_self_iff {total : Int} : wrapped total = total ↔ Fits total := by
  refine ⟨fun h => fits_iff.mpr ⟨Int.not_le.mp fun hl => ?_, Int.not_le.mp fun hu => ?_⟩,
    wrapped_of_fits⟩
  · rw [wrapped_below hl] at h
    simp only [count, second] at h
    omega
  · rw [wrapped_above hu] at h
    simp only [count, second] at h
    omega

/-- Borrowing keeps the exact value: only the least word has nothing to lend, and would not be asked
for it. -/
theorem total_borrow {sec : Int64} {usec : Int} (h : Fits (sec.toInt * second + usec)) :
    (borrow sec usec).1.toInt * second + (borrow sec usec).2 = sec.toInt * second + usec := by
  fun_induction borrow sec usec with
  | case1 sec usec hc ih =>
    have hl := (fits_iff.mp h).1
    have hs := toInt_pred sec
    have he : (sec - 1).toInt * second + (usec + second) = sec.toInt * second + usec := by
      simp only [second, least, greatest] at *
      split at hs <;> split at hc <;> omega
    rw [ih (he ▸ h), he]
  | case2 => rfl

/-- Carrying keeps the exact value. -/
theorem total_carry {sec : Int64} {usec : Int} (h : Fits (sec.toInt * second + usec)) :
    (carry sec usec).1.toInt * second + (carry sec usec).2 = sec.toInt * second + usec := by
  fun_induction carry sec usec with
  | case1 sec usec hc ih =>
    have hu := (fits_iff.mp h).2
    have hs := toInt_succ sec
    have he : (sec + 1).toInt * second + (usec - second) = sec.toInt * second + usec := by
      simp only [second, least, greatest] at *
      split at hs <;> split at hc <;> omega
    rw [ih (he ▸ h), he]
  | case2 => rfl

theorem total_normal_eq_parts (sec : Int64) (usec : Int) :
    (normal sec usec).total = (parts sec usec).1.toInt * second + (parts sec usec).2 := by
  rw [total, usec_normal, sec_normal]

theorem total_normal_of_fits {sec : Int64} {usec : Int} (h : Fits (sec.toInt * second + usec)) :
    (normal sec usec).total = sec.toInt * second + usec := by
  have hb := total_borrow h
  rw [total_normal_eq_parts, parts, total_carry (hb ▸ h), hb]

/-- The greatest word wraps around when one more second is carried into it. -/
theorem total_normal_above {sec : Int64} {usec : Int} (hu : usec < 2 * second)
    (h : (greatest + 1) * second ≤ sec.toInt * second + usec) :
    (normal sec usec).total = sec.toInt * second + usec - count * second := by
  have hg : sec.toInt = greatest := by
    have := (fits_toInt sec).2
    simp only [greatest, second] at *
    omega
  have hs : (sec + 1).toInt = least := by rw [toInt_succ, if_pos hg]
  have hb : borrow sec usec = (sec, usec) := by
    rw [borrow, if_neg]
    rw [hg] at h ⊢
    simp only [greatest, second] at *
    omega
  have hc : carry sec usec = carry (sec + 1) (usec - second) := by
    rw [carry, if_pos]
    rw [hg] at h ⊢
    simp only [greatest, second] at *
    omega
  rw [total_normal_eq_parts, parts, hb, hc, total_carry, hs, hg]
  · simp only [greatest, least, count, second]
    omega
  · rw [hs, fits_iff]
    rw [hg] at h
    simp only [greatest, least, second] at *
    omega

/-- The least word wraps around when one more second is borrowed from it. -/
theorem total_normal_below {sec : Int64} {usec : Int} (hl : -(2 * second) < usec)
    (h : sec.toInt * second + usec ≤ (least - 1) * second) :
    (normal sec usec).total = sec.toInt * second + usec + count * second := by
  have hg : sec.toInt = least := by
    have := (fits_toInt sec).1
    simp only [least, second] at *
    omega
  have hs : (sec - 1).toInt = greatest := by rw [toInt_pred, if_pos hg]
  have hf : Fits ((sec - 1).toInt * second + (usec + second)) := by
    rw [hs, fits_iff]
    rw [hg] at h
    simp only [greatest, least, second] at *
    omega
  have hb : borrow sec usec = borrow (sec - 1) (usec + second) := by
    rw [borrow, if_pos]
    rw [hg] at h ⊢
    simp only [least, second] at *
    omega
  have he := total_borrow hf
  rw [total_normal_eq_parts, parts, hb, total_carry (he ▸ hf), he, hs, hg]
  simp only [greatest, least, count, second]
  omega

/-- **What a normalised pair is worth**: what was normalised, with its seconds wrapped around. -/
theorem total_normal {sec : Int64} {usec : Int} (hl : -(2 * second) < usec)
    (hu : usec < 2 * second) :
    (normal sec usec).total = wrapped (sec.toInt * second + usec) := by
  by_cases ha : (greatest + 1) * second ≤ sec.toInt * second + usec
  · rw [total_normal_above hu ha, wrapped_above ha]
  by_cases hb : sec.toInt * second + usec ≤ (least - 1) * second
  · rw [total_normal_below hl hb, wrapped_below hb]
  have hf : Fits (sec.toInt * second + usec) := fits_iff.mpr ⟨Int.not_le.mp hb, Int.not_le.mp ha⟩
  rw [total_normal_of_fits hf, wrapped_of_fits hf]

variable {a b : TimePair}

/-- Sums whose seconds are a word. -/
theorem total_add (ha : a.Normal) (hb : b.Normal) (h : Word.Fits (a.sec.toInt + b.sec.toInt)) :
    (a.add b).total = wrapped (a.total + b.total) := by
  rw [add, total_normal, toInt_add_eq h]
  · congr 1
    simp only [total, second]
    omega
  · have := ha.1
    have := hb.1
    omega
  · have := ha.2.1
    have := hb.2.1
    omega

/-- Differences whose seconds are a word. -/
theorem total_sub (ha : a.Normal) (hb : b.Normal) (h : Word.Fits (a.sec.toInt - b.sec.toInt)) :
    (a.sub b).total = wrapped (a.total - b.total) := by
  rw [sub, total_normal, toInt_sub_eq h]
  · congr 1
    simp only [total, second]
    omega
  · have := ha.1
    have := hb.2.1
    omega
  · have := ha.2.1
    have := hb.1
    omega

/-- The sign of a normal pair is that of its exact value. -/
theorem sign_eq (h : a.Normal) : a.sign = compare a.total 0 := by
  obtain ⟨hl, hu, hp, hm⟩ := h
  have hz : a.sec = 0 ↔ a.sec.toInt = 0 := Int64.toInt_inj.symm
  simp only [sign, compare, compareOfLessAndEq, ne_eq, hz, total, second] at *
  grind

end TimePair

end ExprEngine
