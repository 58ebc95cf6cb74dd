import ExprEngine.Number.Literal
import ExprEngine.Proofs.Number.Digits
import ExprEngine.Proofs.Time.Normal
import Mathlib.Algebra.Group.Nat.Defs

/-!
# Times in number literals

A decimal is a count of seconds, none of them negative, and at most six digits of microseconds; one
sign stands in front of both.  So every time that a text is read as is a normal pair: with a point,
with colons, with any run of signs, and whatever follows.

* `Literal.normal_of_parse`: the number in front of a text.
-/

namespace ExprEngine

/-- The number is a normal pair if it is a time. -/
def Number.Normal : Number → Prop
  | .decimal t => t.Normal
  | _ => True

namespace Literal

open TimePair

/-! ### Pairs -/

theorem isDigit_of_mem_takeWhile {c : Char} {cs : List Char} (h : c ∈ cs.takeWhile Char.isDigit) :
    c.isDigit = true :=
  List.all_eq_true.mp List.all_takeWhile c h

theorem isDigit_of_mem_spanFraction {c : Char} {cs : List Char} (h : c ∈ (spanFraction cs).1) :
    c.isDigit = true := by
  unfold spanFraction at h
  split at h
  · exact isDigit_of_mem_takeWhile h
  · exact absurd h List.not_mem_nil

/-- Digits behind the point are less than a second. -/
theorem microseconds_lt {ds : List Char} (h : ∀ c ∈ ds, c.isDigit = true) :
    0 ≤ microseconds ds ∧ microseconds ds < second := by
  have hl : (ds.take 6).length ≤ 6 := List.length_take_le 6 ds
  have hv : Decimal.value (ds.take 6) < 10 ^ (ds.take 6).length :=
    Decimal.value_lt fun c hc => h c (List.mem_of_mem_take hc)
  have hm : Decimal.value (ds.take 6) * Decimal.tenTo (6 - (ds.take 6).length) < 10 ^ 6 := by
    calc Decimal.value (ds.take 6) * Decimal.tenTo (6 - (ds.take 6).length)
        < 10 ^ (ds.take 6).length * 10 ^ (6 - (ds.take 6).length) :=
          Nat.mul_lt_mul_of_pos_right hv (Nat.pow_pos (by decide))
      _ = 10 ^ 6 := by rw [← Nat.pow_add, Nat.add_sub_cancel' hl]
  exact ⟨Int.natCast_nonneg _, Int.ofNat_lt.mpr hm⟩

/-- A pair with one sign in front is normal. -/
theorem pair_normal (negative : Bool) {sec : Int64} {usec : Int} (hs : 0 ≤ sec.toInt)
    (hu : 0 ≤ usec ∧ usec < second) : (pair negative sec usec).Normal := by
  have hb := (Word.fits_toInt sec).2
  simp only [second, Word.greatest] at hu hb
  have fits {i : Int} (hl : -second < i) (hr : i < second) : (Int64.ofInt i).toInt = i := by
    refine Word.toInt_ofInt ⟨?_, ?_⟩ <;>
      simp only [second, Word.least, Word.greatest] at * <;> omega
  have hn : (-sec).toInt = -sec.toInt := Word.toInt_neg_eq (by
    simp only [Word.least]
    omega)
  cases negative with
  | true =>
      show TimePair.Normal ⟨-sec, Int64.ofInt (-usec)⟩
      rw [TimePair.Normal, fits (by simp only [second]; omega) (by simp only [second]; omega), hn]
      simp only [second]
      omega
  | false =>
      show TimePair.Normal ⟨sec, Int64.ofInt usec⟩
      rw [TimePair.Normal, fits (by simp only [second]; omega) (by simp only [second]; omega)]
      simp only [second]
      omega

/-! ### Clock times -/

theorem nonneg_of_checked {n : Nat} {w : Int64} (h : Word.checked n = some w) : 0 ≤ w.toInt := by
  rw [Word.checked_eq_some_iff.mp h]
  exact Int.natCast_nonneg n

theorem clockPart_nonneg {unit : Int} (hu : 0 ≤ unit) {ds : List Char} {n : Int64}
    (h : clockPart unit ds = .ok n) : 0 ≤ n.toInt := by
  unfold clockPart at h
  split at h
  · next w hw =>
    cases h
    obtain ⟨v, hv, hw⟩ := Option.bind_eq_some_iff.mp hw
    rw [Word.checked_eq_some_iff.mp hw]
    exact Int.mul_nonneg (nonneg_of_checked hv) hu
  · cases h

theorem clockSum_nonneg {a b n : Int64} (ha : 0 ≤ a.toInt) (hb : 0 ≤ b.toInt)
    (h : clockSum a b = .ok n) : 0 ≤ n.toInt := by
  unfold clockSum at h
  split at h
  · next w hw =>
    cases h
    rw [Word.checked_eq_some_iff.mp hw]
    exact Int.add_nonneg ha hb
  · cases h

/-- A part added to the seconds of a clock time. -/
theorem nonneg_of_part {α : Type} {sec : Int64} (hs : 0 ≤ sec.toInt) {unit : Int} (hu : 0 ≤ unit)
    {ds : List Char} {f : Int64 → Except NumberError α} {a : α}
    (h : (clockPart unit ds >>= fun part => clockSum sec part >>= f) = .ok a) :
    ∃ n, 0 ≤ n.toInt ∧ f n = .ok a := by
  cases hp : clockPart unit ds with
  | error e => rw [hp] at h; cases h
  | ok part =>
      rw [hp] at h
      cases hn : clockSum sec part with
      | error e => simp only [bind, Except.bind, hn] at h; cases h
      | ok n =>
          simp only [bind, Except.bind, hn] at h
          exact ⟨n, clockSum_nonneg hs (clockPart_nonneg hu hp) hn, h⟩

theorem clockSeconds_nonneg {sec n : Int64} {cs rest : List Char} (hs : 0 ≤ sec.toInt)
    (h : clockSeconds sec cs = .ok (n, rest)) : 0 ≤ n.toInt := by
  unfold clockSeconds at h
  split at h
  · obtain ⟨k, hk, he⟩ := nonneg_of_part hs (by decide) h
    cases he
    exact hk
  · cases h
    exact hs

theorem clockMinutes_nonneg {sec n : Int64} {cs rest : List Char} (hs : 0 ≤ sec.toInt)
    (h : clockMinutes sec cs = .ok (n, rest)) : 0 ≤ n.toInt := by
  unfold clockMinutes at h
  split at h
  · cases h
    exact hs
  · obtain ⟨k, hk, he⟩ := nonneg_of_part hs (by decide) h
    exact clockSeconds_nonneg hk he

theorem clock_normal {negative : Bool} {hours cs rest : List Char} {n : Number}
    (h : clock negative hours cs = .ok (n, rest)) : n.Normal := by
  unfold clock at h
  cases hh : clockPart 3600 hours with
  | error e => rw [hh] at h; cases h
  | ok sec =>
      rw [hh] at h
      cases hm : clockMinutes sec cs with
      | error e => simp only [bind, Except.bind, hm] at h; cases h
      | ok r =>
          simp only [bind, Except.bind, hm] at h
          cases h
          exact pair_normal negative
            (clockMinutes_nonneg (clockPart_nonneg (by decide) hh) hm)
            (microseconds_lt fun c hc => isDigit_of_mem_spanFraction hc)

/-! ### Numbers -/

theorem real_normal {negative : Bool} {cs rest : List Char} {n : Number}
    (h : real negative cs = .ok (n, rest)) : n.Normal := by
  unfold real at h
  dsimp only at h
  split at h
  · cases h
  · cases h
    trivial

theorem unsigned_normal {negative : Bool} {cs rest : List Char} {n : Number}
    (h : unsigned negative cs = .ok (n, rest)) : n.Normal := by
  unfold unsigned at h
  dsimp only [spanDigits] at h
  split at h
  -- a colon, a point, an exponent, or neither of them behind the first digits
  · exact clock_normal h
  · split at h
    · next sec hs =>
      split at h
      · exact real_normal h
      · cases h
        exact pair_normal negative (nonneg_of_checked hs)
          (microseconds_lt fun c hc => isDigit_of_mem_takeWhile hc)
    · exact real_normal h
  · exact real_normal h
  · exact real_normal h
  · split at h
    · cases h
      trivial
    · exact real_normal h

/-- **The number in front of a text** is a normal pair if it is a time. -/
theorem normal_of_parse {cs : List Char} {n : Number} {used : Nat}
    (h : parse cs = .ok (n, used)) : n.Normal := by
  unfold parse at h
  dsimp only at h
  generalize (((cs.dropWhile Ascii.isBlank).takeWhile isSign).count '-' % 2 == 1) = negative at h
  cases hu : unsigned negative ((cs.dropWhile Ascii.isBlank).dropWhile isSign) with
  | error e => rw [hu] at h; cases h
  | ok r =>
      rw [hu] at h
      cases h
      exact unsigned_normal hu

end Literal

end ExprEngine
