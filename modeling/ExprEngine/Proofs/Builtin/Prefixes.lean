import ExprEngine.Proofs.Builtin.Arguments
import ExprEngine.Proofs.Text.Encoding

/-!
# Comparing texts and their prefixes

`strcmp` compares the bytes of two texts, `strncmp` the code points of their first characters.  As
both orders are the same, `strncmp` is `strcmp` on the prefixes that `substr` cuts out.

* `Builtin.comparison`: the sign of the order of two texts by their bytes.
* `Builtin.comparison_swap`, `Builtin.comparison_trans`, `Builtin.comparison_eq_zero_iff`: it is the
  sign of a total order.
* `Builtin.strncmp_prefixes`: the two functions.
-/

namespace ExprEngine.Builtin

open Machine

/-! ### The order of bytes -/

/-- Minus one, zero or one. -/
def sign : Ordering → Int64
  | .lt => -1
  | .eq => 0
  | .gt => 1

theorem orderValue_eq (o : Ordering) : orderValue o = .int (sign o) := by
  cases o <;> rfl

theorem sign_swap (o : Ordering) : sign o.swap = -sign o := by
  cases o <;> rfl

theorem sign_le_zero_iff {o : Ordering} : sign o ≤ 0 ↔ o.isLE = true := by
  cases o <;> decide

theorem sign_eq_zero_iff {o : Ordering} : sign o = 0 ↔ o = .eq := by
  cases o <;> decide

/-- The sign of the order of two texts by their bytes in UTF-8. -/
def comparison (s t : String) : Int64 :=
  sign (compare s.toUTF8.data.toList t.toUTF8.data.toList)

theorem comparison_eq (s t : String) : comparison s t = sign (Text.order s.toList t.toList) := by
  rw [comparison, Text.order_eq_compare_utf8]

theorem comparison_swap (s t : String) : comparison t s = -comparison s t := by
  rw [comparison_eq, comparison_eq, ← sign_swap, Text.order_swap]

theorem comparison_eq_zero_iff {s t : String} : comparison s t = 0 ↔ s = t := by
  rw [comparison_eq, sign_eq_zero_iff, Text.order_eq_eq_iff, String.toList_inj]

theorem comparison_trans {s t u : String} (h : comparison s t ≤ 0) (h' : comparison t u ≤ 0) :
    comparison s u ≤ 0 :=
  sign_le_zero_iff.mpr
    (Std.TransCmp.isLE_trans (sign_le_zero_iff.mp h) (sign_le_zero_iff.mp h'))

/-! ### Prefixes -/

section

variable (evaluate : String → Eval Value) (m : Machine) (v w : Value) (n : Int64)

theorem strcmp_comparison :
    call evaluate .strcmp [v, w] m =
      .ok (.int (comparison (m.session.toText v) (m.session.toText w))) m := by
  rw [call_strcmp, orderValue_eq, comparison_eq]
  rfl

variable {n}

/-- A text of fewer characters is its own prefix. -/
theorem take_position (hn : 0 ≤ n) (cs : List Char) :
    cs.take (position n.toInt cs.length) = cs.take n.toInt.toNat := by
  have hpos : 0 ≤ n.toInt := Int64.le_iff_toInt_le.mp hn
  rw [position, if_neg (Int.not_lt.mpr hpos), ← List.take_eq_take_min]

theorem call_upTo (hn : 0 ≤ n) :
    call evaluate .substr [v, .int 0, .int n] m =
      .ok (textValue ((m.charsOf v).take n.toInt.toNat)) m := by
  rw [call_front, take_position hn]

theorem strncmp_of_nonneg (hn : 0 ≤ n) :
    call evaluate .strncmp [v, w, .int n] m = .ok (orderValue (Text.order
      ((m.charsOf v).take n.toInt.toNat) ((m.charsOf w).take n.toInt.toNat))) m := by
  have hneg : ¬n < 0 := Int64.not_lt.mpr hn
  rw [call_strncmp, if_neg hneg]

/-- **`strncmp` is `strcmp` on prefixes.**  A number of characters that is not negative limits the
comparison, by code points, to so many characters of each text; this is the comparison, by bytes, of
the parts of both texts up to there.  A negative number limits nothing.  What is answered is the
sign of a total order of texts. -/
theorem strncmp_prefixes :
    (∀ v w, call evaluate .strcmp [v, w] m =
      .ok (.int (comparison (m.session.toText v) (m.session.toText w))) m) ∧
    (∀ (v w : Value) (n : Int64), 0 ≤ n →
      call evaluate .strncmp [v, w, .int n] m = .ok (.int (sign (compare
          (((m.charsOf v).take n.toInt.toNat).map Char.toNat)
          (((m.charsOf w).take n.toInt.toNat).map Char.toNat)))) m ∧
        call evaluate .strncmp [v, w, .int n] m =
          (do call evaluate .strcmp [← call evaluate .substr [v, .int 0, .int n],
            ← call evaluate .substr [w, .int 0, .int n]]) m) ∧
    (∀ (v w : Value) (n : Int64), n < 0 →
      call evaluate .strncmp [v, w, .int n] m = call evaluate .strcmp [v, w] m) ∧
    (∀ s t, comparison t s = -comparison s t) ∧
    (∀ s t u, comparison s t ≤ 0 → comparison t u ≤ 0 → comparison s u ≤ 0) ∧
    ∀ s t, comparison s t = 0 ↔ s = t := by
  refine ⟨strcmp_comparison evaluate m, fun v w n hn => ⟨?_, ?_⟩, fun v w n hn => ?_,
    comparison_swap, fun s t u => comparison_trans, fun s t => comparison_eq_zero_iff⟩
  · rw [strncmp_of_nonneg evaluate m v w hn, orderValue_eq, Text.order_eq_compare]
  · rw [strncmp_of_nonneg evaluate m v w hn, bind_of_ok (call_upTo evaluate m v hn),
      bind_of_ok (call_upTo evaluate m w hn), call_strcmp, charsOf_textValue, charsOf_textValue]
  · rw [call_strncmp, if_pos hn, call_strcmp]

end

/-- The first character of each text, one of two bytes and one of three. -/
theorem strncmp_prefixes_ofOne :
    0 ≤ (1 : Int64) ∧
      call (evaluate 0) .strncmp [.text "éa", .text "√", .int 1] {} =
        (do call (evaluate 0) .strcmp [← call (evaluate 0) .substr [.text "éa", .int 0, .int 1],
          ← call (evaluate 0) .substr [.text "√", .int 0, .int 1]]) {} := by
  have hn : 0 ≤ (1 : Int64) := by decide
  exact ⟨hn, ((strncmp_prefixes (evaluate 0) {}).2.1 _ _ 1 hn).2⟩

end ExprEngine.Builtin
