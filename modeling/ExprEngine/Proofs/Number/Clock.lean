import ExprEngine.Proofs.Number.Reading
import ExprEngine.Proofs.Number.Times

/-!
# Times as they are written

A time is written as a decimal, digits with a point and at most six more, or as on a clock: the
hours, the minutes, the seconds and a fraction of them.  Of a clock time everything but the first
colon may be left out, though not the minutes where seconds follow.  Either has whole seconds, all
of them counted together, and microseconds, which are what six places of the fraction show.

None of the parts is negative, so a part or a sum on the way is too large only where the time is.

* `clockPart_eq`, `counted_bind`: parts and their sums.
* `Clock.unsigned_text`: a clock time.
* `pair_total`: the pair of some seconds and microseconds, under a sign.
* `times_exact`: all of it together, behind blanks and signs.
-/

namespace ExprEngine.Literal

open Decimal

/-- A run of digits. -/
abbrev Digits : Type :=
  { ds : List Char // AllDigits ds }

/-- Digits behind a mark, or nothing. -/
def marked (mark : Char) : Option Digits → List Char
  | none => []
  | some ds => mark :: ds.val

/-- The digits, if there are any. -/
def digitsOf : Option Digits → List Char
  | none => []
  | some ds => ds.val

/-- The time of a clock in digits. -/
structure Clock where
  hours : Digits
  /-- No digits if the minutes are left out. -/
  minutes : Digits
  seconds : Option Digits
  fraction : Option Digits
  /-- Seconds stand behind minutes only. -/
  ordered : seconds.isSome → minutes.val ≠ []

namespace Clock

variable (c : Clock)

/-- What stands behind the minutes. -/
def afterMinutes : List Char :=
  marked ':' c.seconds ++ marked '.' c.fraction

/-- How the time is written. -/
def text : List Char :=
  c.hours.val ++ ':' :: (c.minutes.val ++ c.afterMinutes)

/-- Whole seconds. -/
def wholes : Nat :=
  value c.hours.val * 3600 + value c.minutes.val * 60 + value (digitsOf c.seconds)

/-- The time does not go on with the text behind it. -/
def Stops (rest : List Char) : Prop :=
  ∀ d, rest.head? = some d → d.isDigit = false ∧
    (c.fraction = none → d ≠ '.' ∧ (c.seconds = none → c.minutes.val ≠ [] → d ≠ ':'))

end Clock

variable {ds rest : List Char} {i j : Int}

/-! ### Parts -/

/-- So many seconds, unless they are too many. -/
def counted (i : Int) : Except NumberError Int64 :=
  match Word.checked i with
  | some n => .ok n
  | none => .error .timeTooLarge

theorem fits_of_nonneg (hi : 0 ≤ i) : Word.Fits i ↔ i ≤ Word.greatest :=
  ⟨And.right, fun h => ⟨by simp only [Word.least]; omega, h⟩⟩

theorem counted_of_le (hi : 0 ≤ i) (h : i ≤ Word.greatest) : counted i = .ok (Int64.ofInt i) := by
  rw [counted, Word.checked_of_fits ((fits_of_nonneg hi).mpr h)]

theorem counted_of_lt (h : Word.greatest < i) : counted i = .error .timeTooLarge := by
  rw [counted, Word.checked_of_not_fits fun hf => absurd hf.2 (Int.not_le.mpr h)]

/-- A part is too large only where its seconds are. -/
theorem clockPart_eq {unit : Int} (hu : 0 < unit) :
    clockPart unit ds = counted (value ds * unit) := by
  have hn : 0 ≤ (value ds : Int) := Int.natCast_nonneg _
  have hm : (value ds : Int) ≤ value ds * unit := by
    simpa using Int.mul_le_mul_of_nonneg_left hu hn
  have hw : (Word.checked (value ds)).bind (fun n => Word.checked (n.toInt * unit)) =
      Word.checked (value ds * unit) := by
    by_cases hf : Word.Fits (value ds)
    · rw [Word.checked_of_fits hf, Option.bind_some, Word.toInt_ofInt hf]
    · have hp : ¬Word.Fits (value ds * unit) := by
        rw [fits_of_nonneg hn] at hf
        rw [fits_of_nonneg (Int.le_trans hn hm)]
        omega
      rw [Word.checked_of_not_fits hf, Word.checked_of_not_fits hp, Option.bind_none]
  unfold clockPart counted
  cases hc : Word.checked (value ds * unit) <;> rw [hw, hc]

/-- A sum is too large where one of its parts is. -/
theorem clockSum_eq (hi : 0 ≤ i) (hj : 0 ≤ j) (hl : i ≤ Word.greatest) (hr : j ≤ Word.greatest) :
    clockSum (Int64.ofInt i) (Int64.ofInt j) = counted (i + j) := by
  rw [clockSum, Word.checkedAdd, Word.toInt_ofInt ((fits_of_nonneg hi).mpr hl),
    Word.toInt_ofInt ((fits_of_nonneg hj).mpr hr)]
  rfl

/-- Two parts that are summed are too large only where their sum is. -/
theorem counted_bind {α : Type} (hi : 0 ≤ i) (hj : 0 ≤ j) (k : Int64 → Except NumberError α) :
    (do k (← clockSum (← counted i) (← counted j))) = counted (i + j) >>= k := by
  by_cases hl : i ≤ Word.greatest
  · by_cases hr : j ≤ Word.greatest
    · rw [counted_of_le hi hl, counted_of_le hj hr, ← clockSum_eq hi hj hl hr]
      rfl
    · rw [counted_of_le hi hl, counted_of_lt (i := j) (by omega),
        counted_of_lt (i := i + j) (by omega)]
      rfl
  · rw [counted_of_lt (i := i) (by omega), counted_of_lt (i := i + j) (by omega)]
    rfl

/-! ### Clock times -/

theorem marked_halts {mark : Char} (hm : mark.isDigit = false) (ds : Option Digits)
    (hr : Halts rest) : Halts (marked mark ds ++ rest) := by
  cases ds with
  | none => exact hr
  | some ds => exact .cons hm

namespace Clock

variable {c : Clock} {α : Type}

theorem Stops.halts (h : c.Stops rest) : Halts rest := fun d hd =>
  (h d hd).1

theorem Stops.spanFraction (h : c.Stops rest) :
    spanFraction (marked '.' c.fraction ++ rest) = (digitsOf c.fraction, rest) := by
  cases hf : c.fraction with
  | some ds => exact spanDigits_append_of_halts ds.property h.halts
  | none =>
      show Literal.spanFraction rest = ([], rest)
      unfold Literal.spanFraction
      split
      · exact absurd rfl ((h '.' rfl).2 hf).1
      · rfl

/-- The seconds behind the minutes, or none. -/
theorem clockSeconds_eq (h : c.Stops rest) (hm : c.minutes.val ≠ []) (hi : 0 ≤ i)
    (k : Int64 × List Char → Except NumberError α) :
    (do k (← clockSeconds (← counted i) (c.afterMinutes ++ rest))) =
      (do k (← counted (i + value (digitsOf c.seconds)), marked '.' c.fraction ++ rest)) := by
  have ht : Halts (marked '.' c.fraction ++ rest) := marked_halts rfl _ h.halts
  cases hs : c.seconds with
  | some ds =>
      have hc : ∀ sec, clockSeconds sec (c.afterMinutes ++ rest) = (do
          return (← clockSum sec (← clockPart 1 ds.val), marked '.' c.fraction ++ rest)) := by
        intro sec
        have ha : c.afterMinutes ++ rest = ':' :: (ds.val ++ (marked '.' c.fraction ++ rest)) := by
          rw [afterMinutes, hs, List.append_assoc]
          rfl
        rw [ha, clockSeconds, spanDigits_append_of_halts ds.property ht]
      simp only [hc, clockPart_eq (show (0 : Int) < 1 by decide), Int.mul_one, bind_assoc,
        pure_bind]
      exact counted_bind hi (Int.natCast_nonneg _) _
  | none =>
      have hc : ∀ sec, clockSeconds sec (c.afterMinutes ++ rest) =
          .ok (sec, marked '.' c.fraction ++ rest) := by
        intro sec
        rw [afterMinutes, hs]
        show clockSeconds sec (marked '.' c.fraction ++ rest) = _
        unfold clockSeconds
        split
        · next more hr =>
          cases hf : c.fraction with
          | some ds => rw [hf] at hr; cases hr
          | none =>
              rw [hf] at hr
              have hr' : rest = ':' :: more := hr
              have hh : rest.head? = some ':' := congrArg List.head? hr'
              exact absurd rfl (((h ':' hh).2 hf).2 hs hm)
        · rfl
      simp only [hc]
      rw [digitsOf, value_nil, Int.natCast_zero, Int.add_zero]
      rfl

/-- The minutes behind the colon, or none. -/
theorem clockMinutes_eq (h : c.Stops rest) (hi : 0 ≤ i)
    (k : Int64 × List Char → Except NumberError α) :
    (do k (← clockMinutes (← counted i) (c.minutes.val ++ (c.afterMinutes ++ rest)))) =
      (do k (← counted (i + value c.minutes.val * 60 + value (digitsOf c.seconds)),
        marked '.' c.fraction ++ rest)) := by
  have ht : Halts (marked '.' c.fraction ++ rest) := marked_halts rfl _ h.halts
  have ha : Halts (c.afterMinutes ++ rest) := by
    rw [afterMinutes, List.append_assoc]
    exact marked_halts rfl _ ht
  have hd := spanDigits_append_of_halts c.minutes.property ha
  by_cases hm : c.minutes.val = []
  · have hs : c.seconds = none := by
      by_contra hs
      exact c.ordered (Option.isSome_iff_ne_none.mpr hs) hm
    have hc : ∀ sec, clockMinutes sec (c.minutes.val ++ (c.afterMinutes ++ rest)) =
        .ok (sec, marked '.' c.fraction ++ rest) := by
      intro sec
      rw [clockMinutes, hd, hm, afterMinutes, hs]
      rfl
    simp only [hc]
    rw [hm, hs, digitsOf, value_nil, Int.natCast_zero, Int.zero_mul, Int.add_zero, Int.add_zero]
    rfl
  · have hc : ∀ sec, clockMinutes sec (c.minutes.val ++ (c.afterMinutes ++ rest)) = (do
        clockSeconds (← clockSum sec (← clockPart 60 c.minutes.val)) (c.afterMinutes ++ rest)) := by
      intro sec
      rw [clockMinutes, hd]
      generalize c.minutes.val = ds at hm
      cases ds with
      | nil => exact absurd rfl hm
      | cons d ds => rfl
    simp only [hc, clockPart_eq (show (0 : Int) < 60 by decide), bind_assoc]
    exact (counted_bind hi (by omega) _).trans (clockSeconds_eq h hm (by omega) k)

/-- What the time is read as behind signs. -/
def read (negative : Bool) (c : Clock) : Except NumberError Number := do
  return pair negative (← counted c.wholes) (microseconds (digitsOf c.fraction))

theorem unsigned_text (negative : Bool) (h : c.Stops rest) :
    unsigned negative (c.text ++ rest) = (c.read negative).map fun n => (n, rest) := by
  have hd : unsigned negative (c.text ++ rest) =
      clock negative c.hours.val (c.minutes.val ++ (c.afterMinutes ++ rest)) := by
    simp only [unsigned, text, List.append_assoc, List.cons_append,
      spanDigits_append_of_halts c.hours.property (.cons (c := ':') rfl)]
  have hw : (value c.hours.val * 3600 + value c.minutes.val * 60 +
      value (digitsOf c.seconds) : Int) = c.wholes := by
    simp [wholes]
  rw [hd, clock, clockPart_eq (by decide)]
  refine (clockMinutes_eq h (by omega) _).trans ?_
  dsimp only
  rw [hw, h.spanFraction, read]
  cases counted c.wholes <;> rfl

end Clock

/-! ### Fractions and pairs -/

/-- The whole millionths of a fraction. -/
def micros (fraction : List Char) : Nat :=
  value fraction * 1000000 / 10 ^ fraction.length

theorem micros_of_le (hl : ds.length ≤ 6) : micros ds = value ds * 10 ^ (6 - ds.length) := by
  have hp : 1000000 = 10 ^ (6 - ds.length) * 10 ^ ds.length := by
    rw [← Nat.pow_add, Nat.sub_add_cancel hl]
  rw [micros, hp, ← Nat.mul_assoc, Nat.mul_div_cancel _ (Nat.pow_pos (by decide))]

/-- Places behind the sixth count for nothing. -/
theorem micros_append {es : List Char} (hl : ds.length = 6) (he : AllDigits es) :
    micros (ds ++ es) = value ds := by
  have hp : 10 ^ (ds.length + es.length) = 10 ^ es.length * 1000000 := by
    rw [hl, Nat.pow_add, Nat.mul_comm]
  rw [micros, List.length_append, hp, Nat.mul_div_mul_right _ _ (by decide), value_append,
    Nat.mul_add_div (Nat.pow_pos (by decide)), Nat.div_eq_of_lt (value_lt he), Nat.add_zero]

theorem microseconds_eq (hd : AllDigits ds) : microseconds ds = micros ds := by
  have hm : microseconds ds = (value (ds.take 6) * 10 ^ (6 - (ds.take 6).length) : Nat) :=
    (Int.natCast_mul _ _).symm
  rw [hm, Int.natCast_inj]
  by_cases hl : ds.length ≤ 6
  · rw [List.take_of_length_le hl, micros_of_le hl]
  · have ht : (ds.take 6).length = 6 := List.length_take_of_le (by omega)
    have ha := micros_append ht fun c hc => hd c (List.mem_of_mem_drop (i := 6) hc)
    rw [List.take_append_drop] at ha
    rw [ha, ht, Nat.sub_self, Nat.pow_zero, Nat.mul_one]

theorem micros_lt (hd : AllDigits ds) : micros ds < 1000000 := by
  have h := (microseconds_lt hd).2
  rw [microseconds_eq hd] at h
  exact Int.ofNat_lt.mp h

/-- Seconds and microseconds under a sign. -/
theorem pair_total (negative : Bool) {n u : Nat} (hn : (n : Int) ≤ Word.greatest)
    (hu : u < 1000000) :
    ∃ t : TimePair, pair negative (Int64.ofInt n) u = .decimal t ∧ t.Normal ∧
      t.total = Binary.signed negative (n * 1000000 + u) := by
  have hs : (Int64.ofInt n).toInt = n :=
    Word.toInt_ofInt ((fits_of_nonneg (Int.natCast_nonneg n)).mpr hn)
  have hf : Word.Fits u ∧ Word.Fits (-u) := by
    constructor <;> constructor <;> simp only [Word.least, Word.greatest] <;> omega
  have hp : (pair negative (Int64.ofInt n) u).Normal :=
    pair_normal negative (by rw [hs]; exact Int.natCast_nonneg n)
      ⟨Int.natCast_nonneg u, Int.ofNat_lt.mpr hu⟩
  refine ⟨_, rfl, hp, ?_⟩
  cases negative with
  | false =>
      simp only [Bool.false_eq_true, if_false, TimePair.total, hs, Word.toInt_ofInt hf.1,
        Binary.signed]
      rfl
  | true =>
      have hneg : (-Int64.ofInt n).toInt = -n := by
        rw [Word.toInt_neg_eq (by simp only [hs, Word.least]; omega), hs]
      simp only [if_true, TimePair.total, hneg, Word.toInt_ofInt hf.2, Binary.signed,
        TimePair.second]
      omega

/-! ### Times -/

/-- A time in digits. -/
inductive Written where
  /-- Whole seconds and at most six places of a fraction. -/
  | decimal (whole fraction : Digits) (short : fraction.val.length ≤ 6)
  | clock (c : Clock)

namespace Written

/-- How the time is written. -/
def text : Written → List Char
  | decimal whole fraction _ => whole.val ++ '.' :: fraction.val
  | clock c => c.text

/-- Whole seconds. -/
def wholes : Written → Nat
  | decimal whole _ _ => value whole.val
  | clock c => c.wholes

/-- The digits of the fraction. -/
def fraction : Written → List Char
  | decimal _ fraction _ => fraction.val
  | clock c => digitsOf c.fraction

/-- The time does not go on with the text behind it. -/
def Stops (rest : List Char) : Written → Prop
  | decimal .. => ∀ d, rest.head? = some d → d.isDigit = false ∧ d ≠ 'e' ∧ d ≠ 'E'
  | clock c => c.Stops rest

/-- What comes of a time whose seconds are too many: a real of a decimal. -/
def beyond (negative : Bool) : Written → Except NumberError Number
  | decimal whole fraction _ =>
    asReal negative (decimalReal (whole.val ++ fraction.val) fraction.val.length)
  | clock _ => .error .timeTooLarge

/-- What the time is read as behind signs. -/
def read (negative : Bool) : Written → Except NumberError Number
  | decimal whole fraction _ => asDecimal negative whole.val fraction.val
  | clock c => c.read negative

variable {w : Written} {rest signs : List Char}

theorem unsigned_text (negative : Bool) (h : w.Stops rest) :
    unsigned negative (w.text ++ rest) = (w.read negative).map fun n => (n, rest) := by
  cases w with
  | decimal whole fraction short =>
      rw [text, List.append_assoc]
      exact unsigned_decimal negative whole.property fraction.property short
        (fun d hd => (h d hd).1) fun d hd => (h d hd).2
  | clock c => exact c.unsigned_text negative h

theorem stops_nil (w : Written) : w.Stops [] := by
  cases w <;> exact nofun

theorem allDigits_fraction (w : Written) : AllDigits w.fraction := by
  cases w with
  | decimal _ fraction _ => exact fraction.property
  | clock c =>
      show AllDigits (digitsOf c.fraction)
      cases c.fraction with
      | none => nofun
      | some ds => exact ds.property

theorem read_of_le (negative : Bool) (h : (w.wholes : Int) ≤ Word.greatest) :
    w.read negative = .ok (pair negative (Int64.ofInt w.wholes) (micros w.fraction)) := by
  rw [← microseconds_eq w.allDigits_fraction]
  cases w with
  | decimal whole fraction short =>
      have hf : Word.Fits (value whole.val) := (fits_of_nonneg (Int.natCast_nonneg _)).mpr h
      rw [read, asDecimal, Word.checked_of_fits hf]
      rfl
  | clock c =>
      have hc : counted c.wholes = .ok _ := counted_of_le (Int.natCast_nonneg _) h
      rw [read, Clock.read, hc]
      rfl

theorem read_of_lt (negative : Bool) (h : Word.greatest < w.wholes) :
    w.read negative = w.beyond negative := by
  cases w with
  | decimal whole fraction short =>
      have hf : ¬Word.Fits (value whole.val) := fun hf => absurd hf.2 (Int.not_le.mpr h)
      rw [read, asDecimal, Word.checked_of_not_fits hf]
      rfl
  | clock c =>
      have hc : counted c.wholes = .error .timeTooLarge := counted_of_lt h
      rw [read, Clock.read, hc]
      rfl

theorem opens_text (w : Written) : Opens signs (w.text ++ rest) := by
  have opens (ds : Digits) {mark : Char} (hb : Ascii.isBlank mark = false)
      (hs : isSign mark = false) (cs : List Char) : Opens signs (ds.val ++ mark :: cs) := by
    by_cases hn : ds.val = []
    · rw [hn]
      exact .cons hb hs
    · exact opens_digits ds.property hn
  cases w with
  | decimal whole fraction short =>
      rw [text, List.append_assoc]
      exact opens whole rfl rfl _
  | clock c =>
      rw [text, Clock.text, List.append_assoc]
      exact opens c.hours rfl rfl _

theorem ascii_marked {mark : Char} (hm : Text.isAscii mark = true) (ds : Option Digits) :
    ∀ c ∈ marked mark ds, Text.isAscii c = true := by
  cases ds with
  | none => nofun
  | some ds => exact List.forall_mem_cons.mpr ⟨hm, ascii_digits ds.property⟩

/-- A time is written in characters of one byte each. -/
theorem ascii_text (w : Written) : ∀ c ∈ w.text, Text.isAscii c = true := by
  cases w with
  | decimal whole fraction short =>
      rw [text, List.forall_mem_append, List.forall_mem_cons]
      exact ⟨ascii_digits whole.property, rfl, ascii_digits fraction.property⟩
  | clock c =>
      simp only [text, Clock.text, Clock.afterMinutes, List.forall_mem_append, List.forall_mem_cons]
      exact ⟨ascii_digits c.hours.property, rfl, ascii_digits c.minutes.property,
        ascii_marked rfl c.seconds, ascii_marked rfl c.fraction⟩

end Written

/-- **Times are read exactly**, to the last character: whole seconds that are a word and the
microseconds of the fraction, both under the sign that the minus signs come to.  Where the seconds
are no word, a decimal is the real of its digits, and a clock time is refused. -/
theorem times_exact (blanks signs : List Char) (w : Written) (rest : List Char)
    (hb : ∀ c ∈ blanks, Ascii.isBlank c = true) (hs : ∀ c ∈ signs, isSign c = true)
    (hr : w.Stops rest) :
    ((w.wholes : Int) ≤ Word.greatest → ∃ t : TimePair,
        parse (blanks ++ (signs ++ (w.text ++ rest))) =
          .ok (.decimal t, (blanks ++ (signs ++ w.text)).length) ∧
        t.Normal ∧
        t.total = Binary.signed (negated signs) (w.wholes * 1000000 + micros w.fraction)) ∧
      (Word.greatest < w.wholes →
        parse (blanks ++ (signs ++ (w.text ++ rest))) =
          (w.beyond (negated signs)).map fun n => (n, (blanks ++ (signs ++ w.text)).length)) ∧
      NumberError.timeTooLarge.message = "time value too large" ∧
      Text.byteSize (blanks ++ (signs ++ w.text)) = (blanks ++ (signs ++ w.text)).length := by
  have hp := parse_behind hb hs w.opens_text (w.unsigned_text (negated signs) hr)
  refine ⟨fun h => ?_, fun h => ?_, rfl, Text.byteSize_of_ascii ?_⟩
  · obtain ⟨t, ht, hn, hv⟩ := pair_total (negated signs) h (micros_lt w.allDigits_fraction)
    rw [w.read_of_le (negated signs) h, ht] at hp
    exact ⟨t, hp, hn, hv⟩
  · rwa [w.read_of_lt (negated signs) h] at hp
  · simp only [List.forall_mem_append]
    exact ⟨fun c hc => Text.isBlank_ofAscii c (hb c hc), fun c hc => isSign_ofAscii c (hs c hc),
      w.ascii_text⟩

/-- A minute and five seconds below zero with a place more than microseconds have, and a clock time
of one second more than the greatest word. -/
theorem times_exact_atTheEnds :
    (∃ t : TimePair, parse "\t +-0:01:05.1234567)".toList = .ok (.decimal t, 19) ∧ t.Normal ∧
        t.total = -65123456) ∧
      parse "2562047788015215:30:08".toList = .error .timeTooLarge := by
  obtain ⟨hr, -⟩ := times_exact "\t ".toList "+-".toList
    (.clock ⟨⟨"0".toList, List.all_eq_true.mp rfl⟩, ⟨"01".toList, List.all_eq_true.mp rfl⟩,
      some ⟨"05".toList, List.all_eq_true.mp rfl⟩,
      some ⟨"1234567".toList, List.all_eq_true.mp rfl⟩, by decide⟩)
    [')'] (List.all_eq_true.mp rfl) (List.all_eq_true.mp rfl)
    (by rintro d hd; cases hd; exact ⟨rfl, nofun⟩)
  obtain ⟨-, hl, -⟩ := times_exact [] []
    (.clock ⟨⟨"2562047788015215".toList, List.all_eq_true.mp rfl⟩,
      ⟨"30".toList, List.all_eq_true.mp rfl⟩, some ⟨"08".toList, List.all_eq_true.mp rfl⟩, none,
      by decide⟩)
    [] nofun nofun nofun
  exact ⟨hr (by decide), hl (by decide)⟩

end ExprEngine.Literal
