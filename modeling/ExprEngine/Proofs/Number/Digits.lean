import ExprEngine.Number.Decimal
import Mathlib.Algebra.Group.Nat.Defs
import Mathlib.Data.List.DropRight

/-!
# Runs of digits

Each digit behind a run moves the run up one place.  So zeros before a run count for nothing, those
at its end count as powers of ten, and a run stands for less than the power of ten that it has
places.  The digits of a number stand for the number, filled up with zeros or not.

* `value_append`, `value_lt`: what a run stands for.
* `value_padded`, `length_padded`: numbers with zeros before them.
* `value_withoutZeros`: a run without the zeros at its end.
-/

namespace ExprEngine.Decimal

/-- There are only digits in the text. -/
abbrev AllDigits (ds : List Char) : Prop :=
  ∀ c ∈ ds, c.isDigit = true

variable {ds es : List Char} {n w : Nat}

/-! ### Values -/

theorem digit_le_nine {c : Char} (h : c.isDigit = true) : digit c ≤ 9 := by
  simp only [Char.isDigit, Bool.and_eq_true, decide_eq_true_eq, ge_iff_le] at h
  have hu : c.toNat ≤ 57 := UInt32.le_iff_toNat_le.mp h.2
  have hz : ('0' : Char).toNat = 48 := rfl
  unfold digit
  omega

theorem value_eq_ofDigitChars (ds : List Char) : value ds = Nat.ofDigitChars 10 ds 0 :=
  rfl

theorem value_append (ds es : List Char) :
    value (ds ++ es) = 10 ^ es.length * value ds + value es := by
  rw [value_eq_ofDigitChars, Nat.ofDigitChars_append, Nat.ofDigitChars_eq_ofDigitChars_zero]
  rfl

theorem value_zeros (n : Nat) : value (List.replicate n '0') = 0 := by
  rw [value_eq_ofDigitChars, Nat.ofDigitChars_replicate_zero, Nat.mul_zero]

theorem value_lt (h : AllDigits ds) : value ds < 10 ^ ds.length := by
  induction ds using List.reverseRecOn with
  | nil => exact Nat.one_pos
  | append_singleton ds c ih =>
      have hd := ih fun d hd => h d (List.mem_append_left _ hd)
      have hc := digit_le_nine (h c (by simp))
      rw [value_concat, List.length_append, List.length_singleton, Nat.pow_succ]
      omega

/-! ### Digits of numbers -/

theorem value_digits (n : Nat) : value (digits n) = n :=
  Nat.ofDigitChars_toDigits (by decide) (by decide)

theorem allDigits_digits (n : Nat) : AllDigits (digits n) := fun _ h =>
  Nat.isDigit_of_mem_toDigits (by decide) (by decide) h

/-- A number starts with a digit. -/
theorem digits_eq_cons (n : Nat) : ∃ c cs, digits n = c :: cs ∧ c.isDigit = true := by
  obtain ⟨c, cs, h⟩ := List.exists_cons_of_ne_nil (Nat.toDigits_ne_nil (n := n) (b := 10))
  exact ⟨c, cs, h, allDigits_digits n c (by rw [digits, h]; exact List.mem_cons_self)⟩

theorem padded_natCast (w n : Nat) :
    padded w n = List.replicate (w - (digits n).length) '0' ++ digits n := by
  rw [padded, if_neg (Int.not_lt.mpr (Int.natCast_nonneg n)), Int.natAbs_natCast]

theorem value_padded (w n : Nat) : value (padded w n) = n := by
  rw [padded_natCast, value_append, value_zeros, value_digits, Nat.mul_zero, Nat.zero_add]

theorem allDigits_padded (w n : Nat) : AllDigits (padded w n) := by
  intro c hc
  rw [padded_natCast, List.mem_append] at hc
  rcases hc with hc | hc
  · rw [List.eq_of_mem_replicate hc]
    rfl
  · exact allDigits_digits n c hc

theorem length_padded (hw : 0 < w) (h : n < 10 ^ w) : (padded w n).length = w := by
  have hl : (digits n).length ≤ w := (Nat.length_toDigits_le_iff (by decide) hw).mpr h
  rw [padded_natCast, List.length_append, List.length_replicate, Nat.sub_add_cancel hl]

/-- An integer is written as its digits behind its sign. -/
theorem text_eq (i : Int) : text i = (if i < 0 then ['-'] else []) ++ digits i.natAbs := by
  simp only [text, padded, Nat.zero_sub, List.replicate_zero, List.nil_append]
  split <;> rfl

theorem text_natCast (n : Nat) : text n = digits n := by
  rw [text_eq, if_neg (Int.not_lt.mpr (Int.natCast_nonneg n)), Int.natAbs_natCast, List.nil_append]

/-! ### Zeros at the end -/

/-- A run without the zeros at its end. -/
def withoutZeros (ds : List Char) : List Char :=
  ds.rdropWhile (· == '0')

theorem eq_withoutZeros_append (ds : List Char) :
    ds = withoutZeros ds ++ List.replicate (ds.length - (withoutZeros ds).length) '0' := by
  have hs : withoutZeros ds ++ ds.rtakeWhile (· == '0') = ds := List.rdropWhile_append_rtakeWhile
  have hz : ds.rtakeWhile (· == '0') =
      List.replicate (ds.rtakeWhile (· == '0')).length '0' :=
    List.eq_replicate_of_mem fun c hc => by simpa using List.mem_rtakeWhile_imp hc
  have hl : (withoutZeros ds).length + (ds.rtakeWhile (· == '0')).length = ds.length := by
    rw [← List.length_append, hs]
  rw [← hl, Nat.add_sub_cancel_left, ← hz, hs]

theorem value_withoutZeros (ds : List Char) :
    value ds = 10 ^ (ds.length - (withoutZeros ds).length) * value (withoutZeros ds) := by
  conv_lhs => rw [eq_withoutZeros_append ds]
  rw [value_append, value_zeros, List.length_replicate, Nat.add_zero]

theorem withoutZeros_isPrefix (ds : List Char) : withoutZeros ds <+: ds :=
  List.rdropWhile_prefix _ ds

end ExprEngine.Decimal
