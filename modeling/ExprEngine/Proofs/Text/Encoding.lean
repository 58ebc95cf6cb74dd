import ExprEngine.Proofs.Text.Bytes
import Mathlib.Algebra.Group.Nat.Defs

/-!
# The order of texts and their encoding

Texts are compared by their code points in one place and by their bytes in UTF-8 in another.  The
encoding was made so that these agree: what marks the first byte of a character grows with the
number of bytes behind it, and all bytes of a character hold its bits from the greatest down.

* `Text.order_eq_compare`: texts are compared as the rows of their code points.
* `Text.exists_shape`: the bytes of a character, the first of which is marked by their number.
* `Text.order_bytes`: the order of the bytes is that of the characters.
* `Text.bytes_isPrefix_iff`: no character's bytes are the front of another's.
* `Text.order_eq_compare_utf8`: so texts are compared as their encodings are.
-/

namespace ExprEngine.Text

/-! ### Comparing -/

theorem order_cons_cons (a b : Char) (as bs : List Char) :
    order (a :: as) (b :: bs) = (compare a.toNat b.toNat).then (order as bs) := by
  have h : compare a.val b.val = compare a.toNat b.toNat := by
    simp only [compare, compareOfLessAndEq, UInt32.lt_iff_toNat_lt, ← UInt32.toNat_inj, Char.toNat]
  rw [order, h]

/-- Texts are compared as the rows of their code points. -/
theorem order_eq_compare (as bs : List Char) :
    order as bs = compare (as.map Char.toNat) (bs.map Char.toNat) := by
  induction as generalizing bs with
  | nil => cases bs <;> rfl
  | cons a as ih =>
      cases bs with
      | nil => rfl
      | cons b bs =>
          rw [order_cons_cons, ih, List.map_cons, List.map_cons, List.compare_cons_cons]

theorem order_swap (as bs : List Char) : (order as bs).swap = order bs as := by
  rw [order_eq_compare, order_eq_compare, ← Std.OrientedOrd.eq_swap]

theorem order_eq_eq_iff {as bs : List Char} : order as bs = .eq ↔ as = bs := by
  rw [order_eq_compare, Std.LawfulEqOrd.compare_eq_iff_eq,
    List.map_inj_right fun _ _ => Char.toNat_inj.mp]

theorem order_of_lt {a b : Char} (h : a.toNat < b.toNat) (as bs : List Char) :
    order (a :: as) (b :: bs) = .lt := by
  rw [order_cons_cons, Nat.compare_eq_lt.mpr h]
  rfl

theorem order_cons_self (a : Char) (as bs : List Char) :
    order (a :: as) (a :: bs) = order as bs := by
  rw [order_cons_cons, Nat.compare_eq_eq.mpr rfl]
  rfl

theorem order_append_left (p as bs : List Char) : order (p ++ as) (p ++ bs) = order as bs := by
  induction p with
  | nil => rfl
  | cons c p ih => rw [List.cons_append, List.cons_append, order_cons_self, ih]

/-! ### The bytes of a character -/

/-- The byte of a number. -/
def octet (n : Nat) : Char :=
  ofByte (UInt8.ofNat n)

theorem toNat_octet {n : Nat} (h : n < 256) : (octet n).toNat = n := by
  rw [octet, toNat_ofByte, UInt8.toNat_ofNat', Nat.mod_eq_of_lt h]

/-- The last `k` bytes of a code point, six bits each. -/
def following (v : Nat) : Nat → List Char
  | 0 => []
  | k + 1 => octet (v / 64 ^ k % 64 + 0x80) :: following v k

/-- How many bytes follow the first one of a code point, and what marks the first. -/
inductive Shape (v : Nat) : (k mark : Nat) → Prop
  | one (h : v ≤ 0x7F) : Shape v 0 0
  | two (h : 0x80 ≤ v) (h' : v ≤ 0x7FF) : Shape v 1 0xC0
  | three (h : 0x800 ≤ v) (h' : v ≤ 0xFFFF) : Shape v 2 0xE0
  | four (h : 0x10000 ≤ v) (h' : v ≤ 0x10FFFF) : Shape v 3 0xF0

theorem toNat_le (c : Char) : c.toNat ≤ 0x10FFFF := by
  rcases c.valid with h | ⟨-, h⟩ <;>
  · have : c.val.toNat < 1114112 := by omega
    exact Nat.le_of_lt_succ this

/-- The bytes of a character: the marked first one holds its greatest bits. -/
theorem exists_shape (c : Char) :
    ∃ k mark, Shape c.toNat k mark ∧
      bytes [c] = octet (mark + c.toNat / 64 ^ k) :: following c.toNat k := by
  have hle := toNat_le c
  have hb : bytes [c] = (String.utf8EncodeChar c).map ofByte := List.append_nil _
  rw [hb, String.utf8EncodeChar, ← Char.toNat]
  by_cases h1 : c.toNat ≤ 0x7F
  · exact ⟨0, 0, .one h1, by simp [h1, following, octet]⟩
  by_cases h2 : c.toNat ≤ 0x7FF
  · refine ⟨1, 0xC0, .two (by omega) h2, ?_⟩
    have hm : c.toNat / 64 % 32 = c.toNat / 64 := by omega
    simp [h1, h2, following, octet, hm, Nat.add_comm]
  by_cases h3 : c.toNat ≤ 0xFFFF
  · refine ⟨2, 0xE0, .three (by omega) h3, ?_⟩
    have hm : c.toNat / 4096 % 16 = c.toNat / 4096 := by omega
    simp [h1, h2, h3, following, octet, hm, Nat.add_comm]
  · refine ⟨3, 0xF0, .four (by omega) hle, ?_⟩
    have hm : c.toNat / 262144 % 8 = c.toNat / 262144 := by omega
    simp [h1, h2, h3, following, octet, hm, Nat.add_comm]

/-- The bytes of a text begin as soon as it does. -/
theorem exists_bytes_cons (c : Char) (cs : List Char) : ∃ u us, bytes (c :: cs) = u :: us := by
  obtain ⟨k, mark, -, hb⟩ := exists_shape c
  exact ⟨_, _, by rw [bytes_cons, hb, List.cons_append]⟩

namespace Shape

variable {v u k l mark other : Nat}

theorem lead_lt (h : Shape v k mark) : mark + v / 64 ^ k < 256 := by
  cases h <;> omega

/-- The first byte of a lesser code point is less, or as many bytes follow the same one and the rest
is less. -/
theorem lead_of_lt (h : Shape v k mark) (g : Shape u l other) (hlt : v < u) :
    mark + v / 64 ^ k < other + u / 64 ^ l ∨
      k = l ∧ mark + v / 64 ^ k = other + u / 64 ^ l ∧ v % 64 ^ k < u % 64 ^ k := by
  cases h <;> cases g <;> simp only [Nat.reducePow, Nat.reduceEqDiff, true_and, false_and] <;> omega

end Shape

/-- As many bits of a lesser number are less, whatever stands behind them. -/
theorem order_following {v u k : Nat} (h : v % 64 ^ k < u % 64 ^ k) (xs ys : List Char) :
    order (following v k ++ xs) (following u k ++ ys) = .lt := by
  induction k with
  | zero =>
      rw [Nat.pow_zero, Nat.mod_one, Nat.mod_one] at h
      exact absurd h (Nat.lt_irrefl 0)
  | succ k ih =>
      have hv := toNat_octet (show v / 64 ^ k % 64 + 0x80 < 256 by omega)
      have hu := toNat_octet (show u / 64 ^ k % 64 + 0x80 < 256 by omega)
      rw [Nat.pow_succ, Nat.mod_mul, Nat.mod_mul] at h
      -- the first six bits decide, and if they are the same the others do
      rcases Nat.lt_trichotomy (v / 64 ^ k % 64) (u / 64 ^ k % 64) with hlt | heq | hgt
      · exact order_of_lt (by omega) _ _
      · rw [following, following, heq]
        rw [heq] at h
        exact (order_cons_self _ _ _).trans (ih (by omega))
      · have hle : 64 ^ k * (u / 64 ^ k % 64 + 1) ≤ 64 ^ k * (v / 64 ^ k % 64) :=
          Nat.mul_le_mul_left _ hgt
        have hr := Nat.mod_lt u (show 64 ^ k > 0 from Nat.pow_pos (by decide))
        rw [Nat.mul_add] at hle
        omega

/-- The bytes of a lesser character are less, whatever stands behind them. -/
theorem order_bytes_of_lt {c d : Char} (h : c.toNat < d.toNat) (xs ys : List Char) :
    order (bytes [c] ++ xs) (bytes [d] ++ ys) = .lt := by
  obtain ⟨k, mark, hc, hb⟩ := exists_shape c
  obtain ⟨l, other, hd, hb'⟩ := exists_shape d
  rw [hb, hb']
  rcases hc.lead_of_lt hd h with hlt | ⟨rfl, heq, hrest⟩
  · refine order_of_lt ?_ _ _
    rwa [toNat_octet hc.lead_lt, toNat_octet hd.lead_lt]
  · rw [heq]
    exact (order_cons_self _ _ _).trans (order_following hrest xs ys)

/-! ### Texts -/

/-- **The order of the bytes is that of the characters.** -/
theorem order_bytes (as bs : List Char) : order (bytes as) (bytes bs) = order as bs := by
  induction as generalizing bs with
  | nil =>
      cases bs with
      | nil => rfl
      | cons b bs =>
          obtain ⟨u, us, hb⟩ := exists_bytes_cons b bs
          rw [hb]
          rfl
  | cons a as ih =>
      cases bs with
      | nil =>
          obtain ⟨u, us, ha⟩ := exists_bytes_cons a as
          rw [ha]
          rfl
      | cons b bs =>
          rw [bytes_cons a, bytes_cons b]
          rcases Nat.lt_trichotomy a.toNat b.toNat with hlt | heq | hgt
          · rw [order_bytes_of_lt hlt, order_of_lt hlt]
          · rw [Char.toNat_inj.mp heq, order_append_left, order_cons_self, ih]
          · rw [← order_swap, order_bytes_of_lt hgt, ← order_swap, order_of_lt hgt]

/-- A text is a prefix of another if its bytes are: a character's bytes are never the front of
another's. -/
theorem bytes_isPrefix_iff {as bs : List Char} : bytes as <+: bytes bs ↔ as <+: bs := by
  refine ⟨fun h => ?_, fun ⟨more, h⟩ => ⟨bytes more, by rw [← bytes_append, h]⟩⟩
  induction as generalizing bs with
  | nil => exact List.nil_prefix
  | cons a as ih =>
      obtain ⟨more, h⟩ := h
      cases bs with
      | nil =>
          obtain ⟨u, us, ha⟩ := exists_bytes_cons a as
          rw [ha] at h
          cases h
      | cons b bs =>
          rw [bytes_cons a, bytes_cons b, List.append_assoc] at h
          rcases Nat.lt_trichotomy a.toNat b.toNat with hlt | heq | hgt
          · have hn := order_bytes_of_lt hlt (bytes as ++ more) (bytes bs)
            rw [h, order_eq_eq_iff.mpr rfl] at hn
            cases hn
          · obtain rfl := Char.toNat_inj.mp heq
            exact List.cons_prefix_cons.mpr ⟨rfl, ih ⟨more, List.append_cancel_left h⟩⟩
          · have hn := order_bytes_of_lt hgt (bytes bs) (bytes as ++ more)
            rw [h, order_eq_eq_iff.mpr rfl] at hn
            cases hn

/-! ### Encodings -/

theorem order_map_ofByte (us vs : List UInt8) :
    order (us.map ofByte) (vs.map ofByte) = compare us vs := by
  induction us generalizing vs with
  | nil => cases vs <;> rfl
  | cons u us ih =>
      cases vs with
      | nil => rfl
      | cons v vs =>
          have h : compare u.toNat v.toNat = compare u v := by
            simp only [compare, compareOfLessAndEq, UInt8.lt_iff_toNat_lt, ← UInt8.toNat_inj]
          rw [List.map_cons, List.map_cons, order_cons_cons, toNat_ofByte, toNat_ofByte, ih, h,
            List.compare_cons_cons]

/-- The order of two texts is that of their bytes in UTF-8. -/
theorem order_eq_compare_utf8 (s t : String) :
    order s.toList t.toList = compare s.toUTF8.data.toList t.toUTF8.data.toList := by
  have h (s : String) : bytes s.toList = s.toUTF8.data.toList.map ofByte := by
    rw [String.toUTF8, ← String.utf8Encode_toList, List.utf8Encode, List.toList_data_toByteArray,
      List.map_flatMap, bytes]
  rw [← order_bytes, h, h, order_map_ofByte]

end ExprEngine.Text
