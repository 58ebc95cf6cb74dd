/-!
# Integers of 64 bits

The integers of the language are signed words.  Sums and products are first taken exactly and then
either fit (`checked`), are clamped to the nearest word (`Int64.ofIntClamp`), or wrap around, which
is what the operators of `Int64` do.

Main statement: `checked` gives a word of the same value, exactly when there is one
(`checked_eq_some_iff`).
-/

namespace ExprEngine.Word

/-- The least word, as an integer. -/
abbrev least : Int := -0x8000000000000000

/-- The greatest word, as an integer. -/
abbrev greatest : Int := 0x7fffffffffffffff

/-- The word of value `i`, if there is one. -/
def checked (i : Int) : Option Int64 :=
  if least ≤ i ∧ i ≤ greatest then some (Int64.ofInt i) else none

/-- The word nearest to `i`. -/
def clamp (i : Int) : Int64 :=
  Int64.ofIntClamp i

/-- The exact sum, if it is a word. -/
def checkedAdd (x y : Int64) : Option Int64 := checked (x.toInt + y.toInt)

/-- The exact difference, if it is a word. -/
def checkedSub (x y : Int64) : Option Int64 := checked (x.toInt - y.toInt)

/-- The exact product, if it is a word. -/
def checkedMul (x y : Int64) : Option Int64 := checked (x.toInt * y.toInt)

theorem checked_eq_some_iff {i : Int} {w : Int64} : checked i = some w ↔ w.toInt = i := by
  constructor
  · intro h
    simp only [checked, least, greatest, Option.ite_none_right_eq_some, Option.some.injEq] at h
    obtain ⟨⟨h₁, h₂⟩, rfl⟩ := h
    have hs : (Int64.size : Int) = 2 ^ 64 := rfl
    rw [Int64.toInt_ofInt]
    apply Int.bmod_eq_of_le <;> omega
  · rintro rfl
    have h₁ : -2 ^ 63 ≤ w.toInt := w.le_toInt
    have h₂ : w.toInt ≤ 2 ^ 63 - 1 := w.toInt_le
    simp only [checked, least, greatest, Int64.ofInt_toInt, Option.ite_none_right_eq_some, and_true]
    omega

theorem checked_toInt (w : Int64) : checked w.toInt = some w :=
  checked_eq_some_iff.mpr rfl

/-- The order of two words. -/
def order (x y : Int64) : Ordering :=
  compare x.toInt y.toInt

end ExprEngine.Word
