import ExprEngine.Time.Pair
import Mathlib.Algebra.Group.Nat.Defs

/-!
# How large reals become

An operation on reals gives an infinity or a NaN only if its operands are large or not finite
themselves.  The measure is the exponent of a real whose mantissa is a whole number of at most 53
bits (`Within`): it grows by two with a sum, and by what divides it with a quotient.  Words have
small exponents, and so have the seconds of a time pair, whose sums are therefore finite reals.

* `within_ofWord`, `within_toReal`: words and times.
* `Within.add`, `Within.sub`, `Within.neg`: sums, differences and negatives.
* `Within.not_isInf`: such a real is not infinite.
-/

namespace ExprEngine.Binary

open Float Float.Model Float.Model.UnpackedFloat

/-- A finite number whose exponent is at most `k`. -/
def Modest (k : Int) : UnpackedFloat → Prop
  | .zero _ => True
  | .finite _ _ e _ => e ≤ k
  | _ => False

/-- The real is a finite number whose exponent is at most `k`. -/
def Within (k : Int) (f : Float) : Prop :=
  Modest k f.toModel.unpack

theorem Modest.mono {k l : Int} {u : UnpackedFloat} (h : Modest k u) (hl : k ≤ l) : Modest l u := by
  cases u with
  | zero => trivial
  | finite => exact Int.le_trans h hl
  | infinity => exact h
  | notANumber => exact h

/-! ### Rounding -/

theorem mantissa_shiftRight (em : ExtendedMantissa) (n : Nat) :
    (em >>> n).mantissa = em.mantissa / 2 ^ n := by
  induction n with
  | zero => exact (Nat.div_one _).symm
  | succ n ih =>
      have hs : (em >>> (n + 1)).mantissa = (em >>> n).mantissa / 2 := rfl
      rw [hs, ih, Nat.div_div_eq_div_mul, Nat.pow_succ]

theorem roundedMantissa_le (em : ExtendedMantissa) : em.roundedMantissa ≤ em.mantissa + 1 := by
  obtain ⟨m, r, s⟩ := em
  cases r <;> cases s <;>
    simp only [ExtendedMantissa.roundedMantissa, ExtendedMantissa.accuracy,
      Accuracy.roundToNearestEven] <;> omega

theorem mantissa_ofMantissaAndAccuracy (m : Nat) (acc : Accuracy) :
    (ExtendedMantissa.ofMantissaAndAccuracy m acc).mantissa = m := by
  unfold ExtendedMantissa.ofMantissaAndAccuracy
  split <;> rfl

/-- The exponent that mantissas are shifted to. -/
theorem targetExponent_eq (e : Int) : Format.binary64.targetExponent e = max (e - 53) (-1074) :=
  rfl

theorem log2_le {m b : Nat} (h : m < 2 ^ (b + 1)) : m.log2 ≤ b := by
  by_cases hz : m = 0
  · rw [hz]
    exact Nat.zero_le b
  · exact Nat.le_of_lt_succ ((Nat.log2_lt hz).mpr h)

/-- What a mantissa is shifted by, and what is left of it then. -/
theorem shiftToTargetExponent_spec (m : Nat) (e : Int) (acc : Accuracy) :
    ∃ n : Nat, (n : Int) = max e (max (m.log2 + 1 + e - 53) (-1074)) - e ∧
      (shiftToTargetExponent .binary64 m e acc).1.mantissa = m / 2 ^ n ∧
      (shiftToTargetExponent .binary64 m e acc).2 = e + n := by
  refine ⟨(Format.binary64.targetExponent (totalExponent m e) - e).toNat, ?_, ?_, rfl⟩
  · rw [targetExponent_eq, totalExponent]
    omega
  · rw [shiftToTargetExponent, shiftToExponent, mantissa_shiftRight,
      mantissa_ofMantissaAndAccuracy]

/-- Rounding up adds one bit at most. -/
theorem log2_roundedMantissa_le {m b n : Nat} {em : ExtendedMantissa} (h : m < 2 ^ (b + 1))
    (hm : em.mantissa = m / 2 ^ n) : em.roundedMantissa.log2 ≤ b + 1 - n := by
  have hr := roundedMantissa_le em
  have hq : m / 2 ^ n < 2 ^ (b + 1 - n) := by
    rw [Nat.div_lt_iff_lt_mul (Nat.two_pow_pos n), ← Nat.pow_add]
    exact Nat.lt_of_lt_of_le h (Nat.pow_le_pow_right (by decide) (by omega))
  exact log2_le (by rw [Nat.pow_succ]; omega)

variable {k l : Int} {m b : Nat} {e : Int}

theorem modest_roundWithAccuracy (hk : -1074 ≤ k) (he : e ≤ k) (hm : m < 2 ^ (b + 1))
    (hb : b + e ≤ k + 51) (s : Sign) (acc : Accuracy) :
    Modest k (roundWithAccuracy .binary64 s m e acc) := by
  obtain ⟨n, hn, hq, hx⟩ := shiftToTargetExponent_spec m e acc
  unfold roundWithAccuracy
  generalize shiftToTargetExponent .binary64 m e acc = p at hq hx
  obtain ⟨em, x⟩ := p
  dsimp only at hq hx ⊢
  have hl := log2_le hm
  have hr := log2_roundedMantissa_le hm hq
  obtain ⟨i, hi, hj, hy⟩ := shiftToTargetExponent_spec em.roundedMantissa x .exact
  generalize shiftToTargetExponent .binary64 em.roundedMantissa x .exact = p at hj hy
  obtain ⟨em', y⟩ := p
  dsimp only at hj hy ⊢
  by_cases hz : em'.mantissa = 0
  · rw [dif_pos hz]
    trivial
  · rw [dif_neg hz]
    show y ≤ k
    omega

/-- Rounding starts with an exponent that is not above the one to come. -/
theorem round_spec (s : Sign) (m : Nat) (e : Int) :
    ∃ n : Nat, (n : Int) = max 0 (e - max (m.log2 + 1 + e - 53) (-1074)) ∧
      round .binary64 s m e = roundWithAccuracy .binary64 s (m <<< n) (e - n) .exact := by
  refine ⟨(e - Format.binary64.targetExponent (totalExponent m e)).toNat, ?_, rfl⟩
  rw [targetExponent_eq, totalExponent]
  omega

theorem modest_round (hk : -1074 ≤ k) (hm : m < 2 ^ (b + 1)) (hb : b + e ≤ k + 51) (s : Sign) :
    Modest k (round .binary64 s m e) := by
  obtain ⟨n, hn, hr⟩ := round_spec s m e
  have hl := log2_le hm
  have hs : m <<< n < 2 ^ (b + n + 1) := by
    rw [Nat.shiftLeft_eq, Nat.add_right_comm, Nat.pow_add]
    exact Nat.mul_lt_mul_of_pos_right hm (Nat.two_pow_pos n)
  rw [hr]
  refine modest_roundWithAccuracy hk ?_ hs ?_ s .exact <;> omega

theorem modest_normalize {i : Int} (hk : -1074 ≤ k) (hi : i.natAbs < 2 ^ (b + 1))
    (hb : b + e ≤ k + 51) (s : Sign) : Modest k (UnpackedFloat.normalize .binary64 i e s) := by
  unfold UnpackedFloat.normalize
  split
  · exact modest_round hk (by omega) hb .negative
  · trivial
  · exact modest_round hk (by omega) hb .positive

/-! ### Packing -/

variable {v : BitVec Format.binary64.numBits}

/-- Below the greatest exponent there are zeros and finite numbers, whose mantissas have 53 bits. -/
theorem unpack_of_ne (hx : unpackExponent v ≠ -1#11) :
    (∃ s, UnpackedFloat.unpack .binary64 v = .zero s) ∨
      ∃ s m e hm, UnpackedFloat.unpack .binary64 v = .finite s m e hm ∧ m < 2 ^ 53 ∧
        e = max 1 ((unpackExponent v).toNat : Int) - 1075 := by
  have hf : (unpackMantissa v).toNat < 2 ^ 52 := (unpackMantissa v).isLt
  unfold UnpackedFloat.unpack
  dsimp only
  rw [if_neg hx]
  by_cases hs : unpackExponent v = 0#11
  · rw [if_pos hs]
    by_cases hz : unpackMantissa v = 0#52
    · rw [dif_pos hz]
      exact .inl ⟨_, rfl⟩
    · have hp : 0 < (unpackMantissa v).toNat :=
        Nat.pos_of_ne_zero fun h => hz (BitVec.eq_of_toNat_eq h)
      rw [dif_neg hz, hs]
      exact .inr ⟨_, _, _, hp, rfl, Nat.lt_trans hf (by decide), rfl⟩
  · have hp : 0 < (1#1 ++ unpackMantissa v).toNat := by
      rw [BitVec.toNat_append]
      exact Nat.lt_of_lt_of_le (by decide) Nat.left_le_or
    have hn : (unpackExponent v).toNat ≠ 0 := fun h => hs (BitVec.eq_of_toNat_eq h)
    rw [if_neg hs]
    refine .inr ⟨_, _, _, hp, rfl, (1#1 ++ unpackMantissa v).isLt, ?_⟩
    show ((unpackExponent v).toNat : Int) - 1075 = _
    omega

/-- The greatest exponent stands for what is not finite. -/
theorem unpack_of_eq (hx : unpackExponent v = -1#11) {s : Sign} {hm : 0 < m} :
    UnpackedFloat.unpack .binary64 v ≠ .finite s m e hm := by
  unfold UnpackedFloat.unpack
  dsimp only
  rw [if_pos hx]
  by_cases hz : unpackMantissa v = 0#52
  · rw [if_pos hz]
    exact nofun
  · rw [if_neg hz]
    exact nofun

/-- Mantissas of unpacked numbers have 53 bits. -/
theorem mantissa_unpack {s : Sign} {hm : 0 < m}
    (h : UnpackedFloat.unpack .binary64 v = .finite s m e hm) : m < 2 ^ 53 := by
  obtain ⟨_, hz⟩ | ⟨_, _, _, _, hu, hb, _⟩ := unpack_of_ne fun hx => unpack_of_eq hx h
  · cases hz.symm.trans h
  · cases hu.symm.trans h
    exact hb

theorem modest_unpack_packComponents {s : Sign} {x : BitVec 11} {y : BitVec 52} (hl : -1074 ≤ k)
    (hk : k ≤ 970) (hx : (x.toNat : Int) - 1075 ≤ k) :
    Modest k (UnpackedFloat.unpack .binary64 (packComponents .binary64 s x y)) := by
  have he : unpackExponent (packComponents .binary64 s x y) = x := unpackExponent_packComponents
  generalize packComponents .binary64 s x y = v at he
  subst he
  have hn : unpackExponent v ≠ -1#11 := fun h => by
    have hz : (-1#11).toNat = 2047 := rfl
    rw [h] at hx
    omega
  obtain ⟨_, hz⟩ | ⟨_, _, _, _, hu, _, he⟩ := unpack_of_ne hn
  · rw [hz]
    trivial
  · rw [hu, he]
    show _ ≤ k
    omega

/-- Packing keeps a number finite whose exponent has room. -/
theorem modest_unpack_pack {u : UnpackedFloat} (hl : -1074 ≤ k) (hk : k ≤ 970) (h : Modest k u) :
    Modest k (UnpackedFloat.unpack .binary64 (UnpackedFloat.pack .binary64 u)) := by
  cases u with
  | notANumber => exact h.elim
  | infinity => exact h.elim
  | zero s =>
      exact modest_unpack_packComponents hl hk (by show (0 : Int) - 1075 ≤ k; omega)
  | finite s m e hm =>
      have he : e ≤ k := h
      have hb : (Format.binary64.exponentBias : Int) + Format.binary64.mantissaBitsWithoutImplicit =
        1075 := rfl
      generalize hx : (e + Format.binary64.exponentBias +
        Format.binary64.mantissaBitsWithoutImplicit).toNat = x
      have hv : (BitVec.ofNat 11 x).toNat = x := Nat.mod_eq_of_lt (by omega)
      have hz : (0#11).toNat = 0 := rfl
      unfold UnpackedFloat.pack
      dsimp only
      rw [hx, if_neg (by show ¬2 ^ 11 ≤ x + 1; omega)]
      split
      · exact modest_unpack_packComponents hl hk (by omega)
      · exact modest_unpack_packComponents hl hk (by omega)

/-! ### Operations -/

variable {f g : Float}

theorem within_pack {u : UnpackedFloat} {p : Float.Model} (hp : p = Float.Model.pack u)
    (hl : -1074 ≤ k) (hk : k ≤ 970) (h : Modest k u) : Within k ⟨p⟩ := by
  subst hp
  exact modest_unpack_pack hl hk h

theorem Within.mono (h : Within k f) (hl : k ≤ l) : Within l f :=
  Modest.mono h hl

/-- What a finite real unpacks to. -/
theorem Within.unpacks (h : Within k f) :
    (∃ s, f.toModel.unpack = .zero s) ∨
      ∃ s m e hm, f.toModel.unpack = .finite s m e hm ∧ m < 2 ^ 53 ∧ e ≤ k := by
  unfold Within at h
  cases hu : f.toModel.unpack with
  | notANumber => rw [hu] at h; exact h.elim
  | infinity => rw [hu] at h; exact h.elim
  | zero s => exact .inl ⟨s, rfl⟩
  | finite s m e hm =>
      rw [hu] at h
      exact .inr ⟨s, m, e, hm, rfl, mantissa_unpack hu, h⟩

theorem Within.not_isInf (h : Within k f) : f.isInf = false := by
  show UnpackedFloat.isInf f.toModel.unpack = false
  obtain ⟨s, hu⟩ | ⟨s, m, e, hm, hu, -, -⟩ := h.unpacks <;> rw [hu] <;> rfl

theorem Within.neg (hl : -1074 ≤ k) (hk : k ≤ 970) (h : Within k f) : Within k (-f) := by
  refine within_pack (u := f.toModel.unpack.neg) rfl hl hk ?_
  obtain ⟨s, hu⟩ | ⟨s, m, e, hm, hu, -, he⟩ := h.unpacks <;> rw [hu]
  · trivial
  · exact he

theorem natAbs_apply (s : Sign) (i : Int) : (s.apply i).natAbs = i.natAbs := by
  cases s <;> simp [Sign.apply]

/-- A mantissa brought to a lower exponent. -/
theorem decreaseExponent_lt {n : Nat} {lower : Int} (hm : m < 2 ^ 53) (hn : e - lower ≤ n) :
    (decreaseExponent m e lower).1 < 2 ^ (53 + n) := by
  rw [decreaseExponent, Nat.shiftLeft_eq, Nat.pow_add]
  exact Nat.mul_lt_mul_of_lt_of_le hm (Nat.pow_le_pow_right (by decide) (by omega))
    (Nat.two_pow_pos n)

/-- Two mantissas are brought to the lower of their exponents; their sum or difference has at most
one bit more, and rounding may take another. -/
theorem modest_combined {m₁ m₂ : Nat} {e₁ e₂ i : Int} (hl : -1074 ≤ k) (h₁ : m₁ < 2 ^ 53)
    (l₁ : e₁ ≤ k) (h₂ : m₂ < 2 ^ 53) (l₂ : e₂ ≤ k)
    (hi : i.natAbs ≤ (decreaseExponent m₁ e₁ (min e₁ e₂)).1 +
      (decreaseExponent m₂ e₂ (min e₁ e₂)).1) (s : Sign) :
    Modest (k + 2) (UnpackedFloat.normalize .binary64 i (min e₁ e₂) s) := by
  obtain ⟨n, hn⟩ := Int.eq_ofNat_of_zero_le (show 0 ≤ k - min e₁ e₂ by omega)
  have a₁ : (decreaseExponent m₁ e₁ (min e₁ e₂)).1 < 2 ^ (53 + n) :=
    decreaseExponent_lt h₁ (by omega)
  have a₂ : (decreaseExponent m₂ e₂ (min e₁ e₂)).1 < 2 ^ (53 + n) :=
    decreaseExponent_lt h₂ (by omega)
  have hb : i.natAbs < 2 ^ (53 + n + 1) := by
    rw [Nat.pow_succ]
    omega
  exact modest_normalize (by omega) hb (by omega) s

theorem Within.add (hl : -1074 ≤ k) (hk : k ≤ 968) (hf : Within k f) (hg : Within k g) :
    Within (k + 2) (f + g) := by
  refine within_pack (u := .add .binary64 f.toModel.unpack g.toModel.unpack) rfl (by omega)
    (by omega) ?_
  obtain ⟨s₁, hu⟩ | ⟨s₁, m₁, e₁, p₁, hu, h₁, l₁⟩ := hf.unpacks <;>
    obtain ⟨s₂, hv⟩ | ⟨s₂, m₂, e₂, p₂, hv, h₂, l₂⟩ := hg.unpacks <;> rw [hu, hv]
  · unfold UnpackedFloat.add
    dsimp only
    split <;> trivial
  · exact Int.le_trans l₂ (by omega)
  · exact Int.le_trans l₁ (by omega)
  · refine modest_combined hl h₁ l₁ h₂ l₂ (Nat.le_trans (Int.natAbs_add_le _ _) ?_) _
    rw [natAbs_apply, natAbs_apply]
    exact Nat.le_refl _

theorem Within.sub (hl : -1074 ≤ k) (hk : k ≤ 968) (hf : Within k f) (hg : Within k g) :
    Within (k + 2) (f - g) := by
  refine within_pack (u := .sub .binary64 f.toModel.unpack g.toModel.unpack) rfl (by omega)
    (by omega) ?_
  obtain ⟨s₁, hu⟩ | ⟨s₁, m₁, e₁, p₁, hu, h₁, l₁⟩ := hf.unpacks <;>
    obtain ⟨s₂, hv⟩ | ⟨s₂, m₂, e₂, p₂, hv, h₂, l₂⟩ := hg.unpacks <;> rw [hu, hv]
  · unfold UnpackedFloat.sub
    dsimp only
    split <;> trivial
  · exact Int.le_trans l₂ (by omega)
  · exact Int.le_trans l₁ (by omega)
  · refine modest_combined hl h₁ l₁ h₂ l₂ (Nat.le_trans (Int.natAbs_sub_le _ _) ?_) _
    rw [natAbs_apply, natAbs_apply]
    exact Nat.le_refl _

theorem mul_finite {s₁ s₂ : Sign} {m₁ m₂ : Nat} {e₁ e₂ : Int} {h₁ : 0 < m₁} {h₂ : 0 < m₂} :
    UnpackedFloat.mul .binary64 (.finite s₁ m₁ e₁ h₁) (.finite s₂ m₂ e₂ h₂) =
      roundWithAccuracy .binary64 (s₁ * s₂) (m₁ * m₂) (e₁ + e₂) .exact :=
  rfl

/-- A product has the bits of both operands. -/
theorem Within.mul (hf : Within k f) (hg : Within l g) (hl : -1128 ≤ k + l) (hk : k + l ≤ 915) :
    Within (k + l + 55) (f * g) := by
  refine within_pack (u := .mul .binary64 f.toModel.unpack g.toModel.unpack) rfl (by omega)
    (by omega) ?_
  obtain ⟨s₁, hu⟩ | ⟨s₁, m₁, e₁, p₁, hu, h₁, l₁⟩ := hf.unpacks <;>
    obtain ⟨s₂, hv⟩ | ⟨s₂, m₂, e₂, p₂, hv, h₂, l₂⟩ := hg.unpacks <;> rw [hu, hv]
  · trivial
  · trivial
  · trivial
  · have hm : m₁ * m₂ < 2 ^ (105 + 1) := by
      have hm := Nat.mul_lt_mul_of_lt_of_le h₁ (Nat.le_of_lt h₂) (Nat.two_pow_pos 53)
      rwa [← Nat.pow_add] at hm
    exact modest_roundWithAccuracy (e := e₁ + e₂) (by omega) (by omega) hm (by omega) _ _

/-- What is divided gets more bits before it is. -/
theorem divCore_spec (m₁ : Nat) (e₁ : Int) (m₂ : Nat) (e₂ : Int) :
    ∃ (n : Nat) (acc : Accuracy),
      divCore .binary64 m₁ e₁ m₂ e₂ = ((m₁ <<< n) / m₂, e₁ - e₂ - n, acc) := by
  obtain ⟨n, hn⟩ := Int.eq_ofNat_of_zero_le (Int.sub_nonneg_of_le (Int.min_le_left (e₁ - e₂)
    (Format.binary64.targetExponent (totalExponent m₁ e₁ - totalExponent m₂ e₂))))
  refine ⟨n, accuracyOfFraction ((m₁ <<< n) % m₂) m₂, ?_⟩
  rw [divCore, hn, Int.toNat_natCast, ← hn, Int.sub_sub_self]

/-- A quotient gains what its divisor has below one. -/
theorem Within.div {s : Sign} {hm : 0 < m} (hf : Within k f)
    (hg : g.toModel.unpack = .finite s m e hm) (hl : -1075 ≤ k - e) (hk : k - e ≤ 969) :
    Within (k - e + 1) (f / g) := by
  refine within_pack (u := .div .binary64 f.toModel.unpack g.toModel.unpack) rfl (by omega)
    (by omega) ?_
  obtain ⟨s₁, hu⟩ | ⟨s₁, m₁, e₁, p₁, hu, h₁, l₁⟩ := hf.unpacks <;> rw [hu, hg]
  · trivial
  · obtain ⟨n, acc, hd⟩ := divCore_spec m₁ e₁ m e
    unfold UnpackedFloat.div
    dsimp only
    rw [hd]
    have hq : (m₁ <<< n) / m < 2 ^ (52 + n + 1) := by
      refine Nat.lt_of_le_of_lt (Nat.div_le_self _ _) ?_
      rw [Nat.shiftLeft_eq, Nat.add_right_comm, Nat.pow_add]
      exact Nat.mul_lt_mul_of_pos_right h₁ (Nat.two_pow_pos n)
    exact modest_roundWithAccuracy (e := e₁ - e - n) (by omega) (by omega) hq (by omega) _ _

/-! ### Words and times -/

theorem unpack_unit :
    ∃ h, Float.exactlyRepresentablePowersOfTen[0].toModel.unpack =
      .finite .positive (2 ^ 52) (-52) h :=
  ⟨by decide, by rfl⟩

theorem unpack_million :
    ∃ h, (1000000.0 : Float).toModel.unpack = .finite .positive (1000000 * 2 ^ 33) (-33) h :=
  ⟨by decide, by rfl⟩

theorem within_unit : Within (-52) Float.exactlyRepresentablePowersOfTen[0] := by
  obtain ⟨h, hu⟩ := unpack_unit
  rw [Within, hu]
  exact Int.le_refl _

theorem within_toFloat (n : UInt64) : Within 12 n.toFloat := by
  have hn : (n.toNat : Int).natAbs < 2 ^ (63 + 1) := n.toNat_lt
  exact within_pack (u := .ofUInt64 .binary64 n) rfl (by decide) (by decide)
    (modest_normalize (by decide) hn (by decide) _)

/-- A whole decimal is scaled up by the bits of a mantissa and then rounded. -/
theorem ofScientific_whole {n : Nat} (h : n ≠ 0) : UnpackedFloat.ofScientific .binary64 n 0 =
    roundWithAccuracy .binary64 .positive (n <<< 53) (-53) .exact := by
  have hl : ¬(0 : Int) < -(2 ^ Format.binary64.exponentBits + (n.log2 : Int)) := by
    show ¬(0 : Int) < -(2 ^ 11 + (n.log2 : Int))
    omega
  have hp : n <<< Format.binary64.mantissaBits * 10 ^ (0 : Int).toNat = n <<< 53 := Nat.mul_one _
  rw [UnpackedFloat.ofScientific, dif_neg h, if_neg (by decide), if_neg hl,
    if_pos (Int.le_refl 0), mul_finite, hp]
  rfl

theorem modest_ofScientific_whole {n : Nat} (h : n < 2 ^ 64) :
    Modest 15 (UnpackedFloat.ofScientific .binary64 n 0) := by
  by_cases hz : n = 0
  · subst hz
    trivial
  · rw [ofScientific_whole hz]
    generalize hm : n <<< 53 = m
    have hb : m < 2 ^ (116 + 1) := by
      rw [← hm, Nat.shiftLeft_eq]
      omega
    exact modest_roundWithAccuracy (by decide) (by decide) hb (by decide) .positive .exact

/-- Natural numbers below `2 ^ 53` are converted as they are, others as decimals without a
fraction. -/
theorem within_ofNat {n : Nat} (h : n < 2 ^ 64) : Within 15 (Float.ofNat n) := by
  show Within 15 (Float.ofScientific n false 0)
  unfold Float.ofScientific
  split
  · exact Within.mul (within_toFloat n.toUInt64) within_unit (by decide) (by decide)
  · exact within_pack (u := .ofScientific .binary64 n 0) rfl (by decide) (by decide)
      (modest_ofScientific_whole h)

/-- Words have 63 bits and a sign. -/
theorem within_ofWord (w : Int64) : Within 15 (ofWord w) := by
  have hl : -2 ^ 63 ≤ w.toInt := w.le_toInt
  have hu : w.toInt ≤ 2 ^ 63 - 1 := w.toInt_le
  unfold ofWord ofInt
  generalize w.toInt = i at hl hu
  cases i with
  | ofNat n =>
      have hn : n < 2 ^ 64 := by
        rw [Int.ofNat_eq_natCast] at hu
        omega
      exact within_ofNat hn
  | negSucc n =>
      have hn : n + 1 < 2 ^ 64 := by omega
      exact (within_ofNat hn).neg (by decide) (by decide)

theorem within_toReal (t : TimePair) : Within 52 t.toReal := by
  obtain ⟨h, hu⟩ := unpack_million
  have hd : Within 49 (ofWord t.usec / 1000000.0) :=
    Within.div (within_ofWord t.usec) hu (by decide) (by decide)
  have hs : Within 50 (ofWord t.sec) := (within_ofWord t.sec).mono (by decide)
  exact hs.add (by decide) (by decide) (hd.mono (by decide))

end ExprEngine.Binary
