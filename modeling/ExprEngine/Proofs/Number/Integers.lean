import ExprEngine.Proofs.Number.Reading
import ExprEngine.Value.Basic

/-!
# Integers as they are written

Digits behind any run of signs are an integer.  The digits are read first and the sign is applied to
their word, so what is read is exact for every integer whose magnitude is a word.  The least word is
the one integer that is a word itself while its magnitude is none: it is read as a real, as integers
beyond the words are.

* `asInteger_of_le`, `asInteger_of_lt`: digits under a sign.
* `parse_text`: an integer that is read as it is shown.
* `integers_read`: all of it together.
-/

namespace ExprEngine.Literal

open Decimal

variable {signs ds rest : List Char}

/-- The integer of digits behind signs. -/
def signedValue (signs ds : List Char) : Int :=
  Binary.signed (negated signs) (value ds)

/-- The magnitude is a word but for the least integer of them. -/
theorem value_le_iff : (value ds : Int) ≤ Word.greatest ↔
    Word.Fits (signedValue signs ds) ∧ signedValue signs ds ≠ Word.least := by
  simp only [signedValue, Binary.signed, Word.Fits, Word.least, Word.greatest]
  split <;> omega

theorem asInteger_of_le (negative : Bool) (h : (value ds : Int) ≤ Word.greatest) :
    ∃ w : Int64, w.toInt = Binary.signed negative (value ds) ∧
      asInteger negative ds = .ok (.int w) := by
  have hn : 0 ≤ (value ds : Int) := Int.natCast_nonneg _
  have hf : Word.Fits (value ds) := ⟨by simp only [Word.least]; omega, h⟩
  have hw := Word.toInt_ofInt hf
  refine ⟨if negative then -Int64.ofInt (value ds) else Int64.ofInt (value ds), ?_, ?_⟩
  · cases negative with
    | false => exact hw
    | true =>
        have hneg := Word.toInt_neg_eq (w := Int64.ofInt (value ds)) (by
          rw [hw]
          exact Int.lt_of_lt_of_le (by decide) hn)
        rw [hw] at hneg
        exact hneg
  · rw [asInteger, Word.checked_of_fits hf]

theorem asInteger_of_lt (negative : Bool) (h : Word.greatest < value ds) :
    asInteger negative ds = asReal negative (decimalReal ds 0) := by
  rw [asInteger, Word.checked_of_not_fits fun hf => absurd hf.2 (Int.not_le.mpr h)]

/-- Digits behind signs, with nothing behind them that could go on. -/
theorem parse_signed (hs : ∀ c ∈ signs, isSign c = true) (hd : AllDigits ds) (hn : ds ≠ [])
    (hr : ∀ c, rest.head? = some c → c.isDigit = false ∧ c ∉ [':', '.', 'e', 'E']) :
    parse (signs ++ (ds ++ rest)) =
      (asInteger (negated signs) ds).map fun n => (n, (signs ++ ds).length) :=
  parse_signs hs (opens_digits hd hn)
    (unsigned_digits (negated signs) hd (fun c hc => (hr c hc).1) fun c hc => (hr c hc).2)

/-- An integer that is not the least word is read as it is shown. -/
theorem parse_text {w : Int64} (h : w.toInt ≠ Word.least) :
    parse (text w.toInt) = .ok (.int w, (text w.toInt).length) := by
  have hm : (if w.toInt < 0 then ['-'] else []) = minus (decide (w.toInt < 0)) := by
    simp [minus]
  have hv : Binary.signed (decide (w.toInt < 0)) (value (digits w.toInt.natAbs)) = w.toInt := by
    rw [value_digits, Binary.signed]
    by_cases hz : w.toInt < 0 <;>
      simp only [hz, decide_true, decide_false, Bool.false_eq_true, if_true, if_false] <;> omega
  have hl : (value (digits w.toInt.natAbs) : Int) ≤ Word.greatest := by
    have hf := Word.fits_toInt w
    rw [value_digits]
    simp only [Word.Fits, Word.least, Word.greatest] at *
    omega
  obtain ⟨n, hn, he⟩ := asInteger_of_le (decide (w.toInt < 0)) hl
  have hs : ∀ c ∈ minus (decide (w.toInt < 0)), isSign c = true := fun _ => isSign_of_mem_minus
  have hr : ∀ c, ([] : List Char).head? = some c → c.isDigit = false ∧ c ∉ [':', '.', 'e', 'E'] :=
    nofun
  have hp := parse_signed hs (allDigits_digits w.toInt.natAbs) Nat.toDigits_ne_nil hr
  rw [negated_minus, he, List.append_nil, ← hm, ← text_eq] at hp
  rw [hp, Int64.toInt_inj.mp (hn.trans hv)]
  rfl

/-- **Integers are read exactly**, signs and digits to the last of them, whenever they are words but
the least; that one and what is no word are read as the reals of their digits.  So integers that are
shown are read as they were, but for the least. -/
theorem integers_read (signs ds rest : List Char) (hs : ∀ c ∈ signs, isSign c = true)
    (hd : AllDigits ds) (hn : ds ≠ [])
    (hr : ∀ c, rest.head? = some c → c.isDigit = false ∧ c ∉ [':', '.', 'e', 'E']) :
    (Word.Fits (signedValue signs ds) ∧ signedValue signs ds ≠ Word.least →
        ∃ w : Int64, w.toInt = signedValue signs ds ∧
          parse (signs ++ (ds ++ rest)) = .ok (.int w, (signs ++ ds).length)) ∧
      (¬Word.Fits (signedValue signs ds) ∨ signedValue signs ds = Word.least →
        parse (signs ++ (ds ++ rest)) =
          (asReal (negated signs) (decimalReal ds 0)).map fun n => (n, (signs ++ ds).length)) ∧
      Text.byteSize (signs ++ ds) = (signs ++ ds).length ∧
      ∀ (w : Int64) (sigfigs : Nat), w.toInt ≠ Word.least →
        parse ((Payload.int w).render sigfigs).toList =
          .ok (.int w, ((Payload.int w).render sigfigs).length) := by
  have hp := parse_signed hs hd hn hr
  refine ⟨fun h => ?_, fun h => ?_, Text.byteSize_of_ascii ?_, fun w sigfigs h => ?_⟩
  · obtain ⟨w, hw, he⟩ := asInteger_of_le (negated signs) (value_le_iff.mpr h)
    rw [he] at hp
    exact ⟨w, hw, hp⟩
  · have hv : ¬(value ds : Int) ≤ Word.greatest := fun hv =>
      (value_le_iff.mp hv).elim fun hf hl => h.elim (absurd hf) (absurd · hl)
    rwa [asInteger_of_lt (negated signs) (Int.not_le.mp hv)] at hp
  · rw [List.forall_mem_append]
    exact ⟨fun c hc => isSign_ofAscii c (hs c hc), ascii_digits hd⟩
  · rw [Payload.render, String.toList_ofList, String.length_ofList]
    exact parse_text h

/-- Seven behind three signs, the word next to the least, and the digits of the least. -/
theorem integers_read_atTheLeast :
    (∃ w : Int64, w.toInt = 7 ∧ parse "+--07)".toList = .ok (.int w, 5)) ∧
      (∃ w : Int64, w.toInt = -9223372036854775807 ∧
        parse "-9223372036854775807".toList = .ok (.int w, 20)) ∧
      parse "-9223372036854775808".toList =
        (asReal true (decimalReal "9223372036854775808".toList 0)).map fun n => (n, 20) := by
  obtain ⟨hp, -⟩ := integers_read "+--".toList "07".toList [')'] (List.all_eq_true.mp rfl)
    (List.all_eq_true.mp rfl) (by decide) (by rintro c hc; cases hc; decide)
  obtain ⟨hm, -⟩ := integers_read ['-'] "9223372036854775807".toList []
    (List.all_eq_true.mp rfl) (List.all_eq_true.mp rfl) (by decide) nofun
  obtain ⟨-, hl, -⟩ := integers_read ['-'] "9223372036854775808".toList []
    (List.all_eq_true.mp rfl) (List.all_eq_true.mp rfl) (by decide) nofun
  exact ⟨hp (by decide), hm (by decide), hl (by decide)⟩

/-- The least word is shown in digits that are read as a real. -/
theorem least_read_as_real :
    Word.Fits (-9223372036854775808) ∧
      ((Payload.int (-9223372036854775808)).render 15).toList = "-9223372036854775808".toList ∧
      parse "-9223372036854775808".toList = .ok (.real (-9223372036854775808.0), 20) :=
  ⟨by decide, by decide, by with_unfolding_all rfl⟩

end ExprEngine.Literal
