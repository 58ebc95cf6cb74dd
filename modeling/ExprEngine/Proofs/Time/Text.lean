import ExprEngine.Machine.Run
import ExprEngine.Proofs.Number.Clock

/-!
# Reading written times

A time is written as a sign, the digits of its seconds or the clock time of them, and its
microseconds without the zeros at the end.  The sign is that of the whole pair, so it stands there
also where the seconds are zero; behind it are the magnitudes of both members.  What is read is then
the pair that was written, unless its seconds are the least that there are: those have no magnitude
that is a word.

* `decimalText_eq`, `durationText_of_minute`: how a normal pair is written.
* `microseconds_fraction`: the microseconds in a fraction.
* `parse_decimalText`, `parse_durationText`: the pair that is read.
* `number_parameter`: the parameter for an argument that is the name of a time.
* `read_as_written`: all of it together.
-/

namespace ExprEngine

open Decimal Literal

namespace TimePair

variable {t : TimePair} {n : Nat}

/-! ### Fractions -/

theorem fraction_natCast (n : Nat) :
    fraction n = if withoutZeros (padded 6 n) = [] then ['0'] else withoutZeros (padded 6 n) := by
  unfold fraction
  rw [← List.rdropWhile, ← withoutZeros]
  cases withoutZeros (padded 6 n) <;> rfl

theorem allDigits_fraction (n : Nat) : AllDigits (fraction n) := by
  rw [fraction_natCast]
  split
  · intro c hc
    rw [List.mem_singleton.mp hc]
    rfl
  · exact fun c hc => allDigits_padded 6 n c ((withoutZeros_isPrefix _).subset hc)

theorem length_withoutZeros_le (h : n < 10 ^ 6) : (withoutZeros (padded 6 n)).length ≤ 6 := by
  have hl := (withoutZeros_isPrefix (padded 6 n)).length_le
  rwa [length_padded (by decide) h] at hl

theorem length_fraction_le (h : n < 10 ^ 6) : (fraction n).length ≤ 6 := by
  rw [fraction_natCast]
  split
  · decide
  · exact length_withoutZeros_le h

/-- The microseconds that are read from a fraction. -/
theorem microseconds_fraction (h : n < 10 ^ 6) : microseconds (fraction n) = n := by
  have hv := value_withoutZeros (padded 6 n)
  rw [value_padded, length_padded (by decide) h] at hv
  rw [fraction_natCast]
  split
  · next he =>
    -- nothing is left of six zeros, and one of them is put back
    rw [he, value_nil, Nat.mul_zero] at hv
    rw [hv]
    simp [microseconds, value, digit]
  · rw [microseconds, List.take_of_length_le (length_withoutZeros_le h), ← Int.natCast_mul,
      Nat.mul_comm]
    exact congrArg Int.ofNat hv.symm

/-! ### What is written -/

/-- One of the members is below zero. -/
abbrev Negative (t : TimePair) : Prop :=
  t.sec.toInt < 0 ∨ t.usec.toInt < 0

/-- Whole seconds without their sign. -/
def wholes (t : TimePair) : Nat :=
  t.sec.toInt.natAbs

/-- Microseconds without their sign. -/
def micros (t : TimePair) : Nat :=
  t.usec.toInt.natAbs

theorem Normal.micros_lt (h : t.Normal) : t.micros < 10 ^ 6 := by
  obtain ⟨hl, hu, -, -⟩ := h
  simp only [micros, second] at *
  omega

/-- The microseconds that are written behind a sign of the whole pair. -/
theorem Normal.natCast_micros (h : t.Normal) :
    (t.micros : Int) = if t.Negative then -t.usec.toInt else t.usec.toInt := by
  obtain ⟨-, -, hp, hm⟩ := h
  unfold micros Negative
  split <;> omega

theorem decimalText_eq (h : t.Normal) :
    t.decimalText = minus (decide t.Negative) ++ (digits t.wholes ++ '.' :: fraction t.micros) := by
  have hz : t.sec = 0 ↔ t.sec.toInt = 0 := Int64.toInt_inj.symm
  rw [decimalText, Decimal.text_eq, ← h.natCast_micros, ← wholes]
  simp only [hz, minus, decide_eq_true_eq]
  by_cases hs : t.sec.toInt < 0
  · simp [Negative, hs, Int.ne_of_lt hs]
  by_cases hu : t.usec.toInt < 0
  · have he : t.sec.toInt = 0 := by
      have := h.2.2.1
      omega
    simp [Negative, hu, he]
  · simp [Negative, hs, hu]

theorem toInt_wholes (hl : Word.least < t.sec.toInt) :
    (if t.sec.toInt < 0 then -t.sec else t.sec).toInt = t.wholes := by
  have hn := Word.toInt_neg_eq hl
  unfold wholes
  split <;> omega

theorem durationText_of_seconds (hw : ¬60 ≤ t.wholes) : t.durationText = t.decimalText := by
  unfold wholes at hw
  exact if_pos (by omega)

theorem padded_two_ne_nil : padded 2 (n % 60 : Nat) ≠ [] := by
  rw [← List.length_pos_iff, length_padded (by decide) (by omega)]
  decide

/-- The clock time of some seconds and microseconds, which ends behind the minutes where no more is
left. -/
def clockOf (w u : Nat) : Clock where
  hours := ⟨digits (w / 3600), allDigits_digits _⟩
  minutes := ⟨padded 2 (w / 60 % 60 : Nat), allDigits_padded _ _⟩
  seconds := if w % 60 ≠ 0 ∨ u ≠ 0 then some ⟨padded 2 (w % 60 : Nat), allDigits_padded _ _⟩
    else none
  fraction := if u ≠ 0 then some ⟨fraction u, allDigits_fraction u⟩ else none
  ordered := fun _ => padded_two_ne_nil

theorem afterMinutes_clockOf (w u : Nat) :
    (clockOf w u).afterMinutes =
      (if w % 60 ≠ 0 ∨ u ≠ 0 then ':' :: padded 2 (w % 60 : Nat) else []) ++
        (if u ≠ 0 then '.' :: fraction u else []) := by
  simp only [Clock.afterMinutes, clockOf]
  congr 1 <;> split <;> rfl

theorem durationText_of_minute (h : t.Normal) (hl : Word.least < t.sec.toInt)
    (hw : 60 ≤ t.wholes) :
    t.durationText = minus (decide t.Negative) ++ (clockOf t.wholes t.micros).text := by
  have hn : t.sec.toInt < 0 ↔ t.Negative := by
    obtain ⟨-, -, hp, hm⟩ := h
    unfold wholes at hw
    unfold Negative
    omega
  have hs : ¬(-60 < t.sec.toInt ∧ t.sec.toInt < 60) := by
    unfold wholes at hw
    omega
  have hu := h.natCast_micros
  simp only [← hn] at hu
  have hq : (t.wholes : Int).tdiv 3600 = (t.wholes / 3600 : Nat) := rfl
  have hm : ((t.wholes : Int).tdiv 60).tmod 60 = (t.wholes / 60 % 60 : Nat) := rfl
  have hr : (t.wholes : Int).tmod 60 = (t.wholes % 60 : Nat) := rfl
  have hd : decide (t.sec.toInt < 0) = decide t.Negative := by simp only [hn]
  simp only [durationText, if_neg hs, toInt_wholes hl, ← hu, hq, hm, hr, Decimal.text_natCast,
    ← hd, minus, Clock.text, afterMinutes_clockOf, ne_eq, Int.natCast_eq_zero, decide_eq_true_eq,
    List.append_assoc, List.cons_append]
  rfl

/-! ### What is read -/

/-- Both members with the sign of the whole pair are the pair. -/
theorem pair_eq (h : t.Normal) (hl : Word.least < t.sec.toInt) :
    pair (decide t.Negative) (Int64.ofInt t.wholes) t.micros = .decimal t := by
  have hw : Int64.ofInt t.wholes = if t.sec.toInt < 0 then -t.sec else t.sec := by
    rw [← toInt_wholes hl, Int64.ofInt_toInt]
  have hz : ¬t.sec.toInt < 0 → t.Negative → t.sec = 0 := by
    obtain ⟨-, -, hp, -⟩ := h
    rw [← Int64.toInt_inj, Int64.toInt_zero]
    omega
  rw [pair, hw, h.natCast_micros]
  by_cases hn : t.Negative
  · simp only [hn, decide_true, if_true, Int.neg_neg, Int64.ofInt_toInt]
    split
    · rw [Int64.neg_neg]
    · next hs => rw [hz hs hn, Int64.neg_zero, ← hz hs hn]
  · have hs : ¬t.sec.toInt < 0 := fun hs => hn (.inl hs)
    simp only [hn, decide_false, if_false, hs, Int64.ofInt_toInt]
    rfl

theorem wholes_le (hl : Word.least < t.sec.toInt) : (t.wholes : Int) ≤ Word.greatest := by
  rw [← toInt_wholes hl]
  exact Int64.toInt_le _

/-- What is written behind the sign is read to its end. -/
theorem parse_written (h : t.Normal) (hl : Word.least < t.sec.toInt) {w : Written}
    (hw : w.wholes = t.wholes) (hu : microseconds w.fraction = t.micros) :
    parse (minus (decide t.Negative) ++ w.text) =
      .ok (.decimal t, (minus (decide t.Negative) ++ w.text).length) := by
  have hle : (w.wholes : Int) ≤ Word.greatest := by
    rw [hw]
    exact wholes_le hl
  have hr := w.read_of_le (decide t.Negative) hle
  rw [hw, ← microseconds_eq w.allDigits_fraction, hu, pair_eq h hl] at hr
  have hp := parse_signs (fun _ => isSign_of_mem_minus) w.opens_text
    (w.unsigned_text (negated (minus (decide t.Negative))) w.stops_nil)
  rw [negated_minus, hr, List.append_nil] at hp
  exact hp

/-- The decimal of a time. -/
def decimalOf (t : TimePair) (h : t.Normal) : Written :=
  .decimal ⟨digits t.wholes, allDigits_digits _⟩ ⟨fraction t.micros, allDigits_fraction _⟩
    (length_fraction_le h.micros_lt)

theorem parse_decimalText (h : t.Normal) (hl : Word.least < t.sec.toInt) :
    parse t.decimalText = .ok (.decimal t, t.decimalText.length) := by
  rw [decimalText_eq h]
  exact parse_written h hl (w := decimalOf t h) (value_digits _) (microseconds_fraction h.micros_lt)

theorem wholes_clockOf (w u : Nat) : (clockOf w u).wholes = w := by
  have hs : value (digitsOf (clockOf w u).seconds) = w % 60 := by
    simp only [clockOf]
    split
    · exact value_padded _ _
    · next hz =>
      rw [digitsOf, value_nil]
      omega
  rw [Clock.wholes, hs]
  simp only [clockOf, value_digits, value_padded]
  omega

theorem microseconds_clockOf {w u : Nat} (h : u < 10 ^ 6) :
    microseconds (digitsOf (clockOf w u).fraction) = u := by
  simp only [clockOf]
  split
  · exact microseconds_fraction h
  · next hz =>
    rw [Decidable.not_not.mp hz]
    rfl

theorem parse_durationText (h : t.Normal) (hl : Word.least < t.sec.toInt) :
    parse t.durationText = .ok (.decimal t, t.durationText.length) := by
  by_cases hw : 60 ≤ t.wholes
  · rw [durationText_of_minute h hl hw]
    exact parse_written h hl (w := .clock (clockOf t.wholes t.micros)) (wholes_clockOf _ _)
      (microseconds_clockOf h.micros_lt)
  · rw [durationText_of_seconds hw]
    exact parse_decimalText h hl

/-! ### Characters -/

theorem ascii_minus (negative : Bool) : ∀ c ∈ minus negative, Text.isAscii c = true :=
  fun c hc => isSign_ofAscii c (isSign_of_mem_minus hc)

/-- A time is written in characters of one byte each. -/
theorem ascii_decimalText (h : t.Normal) : ∀ c ∈ t.decimalText, Text.isAscii c = true := by
  rw [decimalText_eq h, List.forall_mem_append]
  exact ⟨ascii_minus _, (decimalOf t h).ascii_text⟩

theorem ascii_durationText (h : t.Normal) (hl : Word.least < t.sec.toInt) :
    ∀ c ∈ t.durationText, Text.isAscii c = true := by
  by_cases hw : 60 ≤ t.wholes
  · rw [durationText_of_minute h hl hw, List.forall_mem_append]
    exact ⟨ascii_minus _, (Written.clock (clockOf t.wholes t.micros)).ascii_text⟩
  · rw [durationText_of_seconds hw]
    exact ascii_decimalText h

/-! ### Parameters -/

theorem parse_text (h : t.Normal) (hl : Word.least < t.sec.toInt) (kind : TimeKind) :
    parse (t.text kind).toList = .ok (.decimal t, (t.text kind).length) := by
  rw [text.eq_def, String.toList_ofList, String.length_ofList]
  cases kind with
  | duration => exact parse_durationText h hl
  | decimal | absolute => exact parse_decimalText h hl

/-- The parameter for an argument that is the name of a time stands for that time, as a decimal. -/
theorem number_parameter (h : t.Normal) (hl : Word.least < t.sec.toInt) {kind : TimeKind}
    {s : Session} {v w : Value} (hv : v.name?.isSome = true) (hw : s.target? v = some w)
    (ht : w.payload = .time t kind) (inner : Session) :
    inner.number (Machine.parameter s v) = pure (some (.time t .decimal)) := by
  have hp : Machine.parameter s v = .text (t.text kind) := by
    rw [Machine.parameter, if_pos hv, Session.toText, hw]
    simp only [ht, Payload.render]
  have hf : inner.target? (.text (t.text kind)) = some (.text (t.text kind)) := rfl
  rw [hp, Session.number, hf]
  simp only [Value.text, Payload.number, parse_text h hl]
  rfl

/-- **A time is read as it was written**, to the last byte of its text: as a decimal or on the
clock, and by a macro that gets the name of a variable that holds it. -/
theorem read_as_written (h : t.Normal) (hl : Word.least < t.sec.toInt) :
    (parse t.decimalText = .ok (.decimal t, t.decimalText.length) ∧
        Text.byteSize t.decimalText = t.decimalText.length) ∧
      (parse t.durationText = .ok (.decimal t, t.durationText.length) ∧
        Text.byteSize t.durationText = t.durationText.length) ∧
      ∀ (s inner : Session) (v w : Value) (kind : TimeKind), v.name?.isSome = true →
        s.target? v = some w → w.payload = .time t kind →
        inner.number (Machine.parameter s v) = pure (some (.time t .decimal)) :=
  ⟨⟨parse_decimalText h hl, Text.byteSize_of_ascii (ascii_decimalText h)⟩,
    ⟨parse_durationText h hl, Text.byteSize_of_ascii (ascii_durationText h hl)⟩,
    fun _ inner _ _ _ hv hw ht => number_parameter h hl hv hw ht inner⟩

/-- An hour and half a second before something, in a variable that a macro gets. -/
theorem read_as_written_beforeAnHour :
    (decimalText ⟨-3600, -500000⟩ = "-3600.5".toList ∧
        durationText ⟨-3600, -500000⟩ = "-1:00:00.5".toList) ∧
      parse "-3600.5".toList = .ok (.decimal ⟨-3600, -500000⟩, 7) ∧
      parse "-1:00:00.5".toList = .ok (.decimal ⟨-3600, -500000⟩, 10) ∧
      Session.number {} (Machine.parameter
        (Session.assign {} "t" (.time ⟨-3600, -500000⟩ .duration)) (.name "t")) =
        pure (some (.time ⟨-3600, -500000⟩ .decimal)) := by
  obtain ⟨⟨hd, -⟩, ⟨hc, -⟩, hp⟩ := read_as_written (t := ⟨-3600, -500000⟩) (by decide) (by decide)
  have hs : decimalText ⟨-3600, -500000⟩ = "-3600.5".toList := by decide
  have hm : durationText ⟨-3600, -500000⟩ = "-1:00:00.5".toList := by decide
  rw [hs] at hd
  rw [hm] at hc
  exact ⟨⟨hs, hm⟩, hd, hc, hp _ _ _ (.time ⟨-3600, -500000⟩ .duration) .duration rfl rfl rfl⟩

end TimePair

end ExprEngine
