import ExprEngine.Proofs.Number.Bytes
import ExprEngine.Proofs.Number.Digits
import ExprEngine.Proofs.Time.Normal

/-!
# Reading written numbers

A number is read as far as it goes on: a run of digits up to what is no digit, a point and the
digits behind it.  Blanks and signs in front of it are passed; what counts of them is whether the
minus signs are odd in number.  The statements give what each reader comes to where a text has been
written for it, whatever stands behind, with the error where a number is too large.

* `append_behind`, `parse_behind`: blanks and signs in front.
* `unsigned_digits`, `unsigned_decimal`: digits alone, and with a fraction behind them.
-/

namespace ExprEngine.Literal

open Decimal

variable {ds rest fraction blanks signs cs : List Char} {negative : Bool}

/-! ### Runs of digits -/

/-- A run of a class of characters ends where a character outside it stands, or with the text. -/
theorem takeWhile_run {p : Char → Bool} {run : List Char} (hp : ∀ c ∈ run, p c = true)
    (hr : ∀ c, rest.head? = some c → p c = false) :
    (run ++ rest).takeWhile p = run ∧ (run ++ rest).dropWhile p = rest := by
  rw [List.takeWhile_append_of_pos hp, List.dropWhile_append_of_pos hp]
  cases rest with
  | nil => simp
  | cons c rest => simp [hr c rfl]

/-- No digit stands in front of the text. -/
def Halts (rest : List Char) : Prop :=
  ∀ c, rest.head? = some c → c.isDigit = false

theorem Halts.nil : Halts [] :=
  nofun

theorem Halts.cons {c : Char} (h : c.isDigit = false) : Halts (c :: rest) := by
  intro d hd
  cases hd
  exact h

theorem spanDigits_append_of_halts (hd : AllDigits ds) (hr : Halts rest) :
    spanDigits (ds ++ rest) = (ds, rest) := by
  obtain ⟨ht, hw⟩ := takeWhile_run hd hr
  rw [spanDigits, ht, hw]

/-- Digits are characters of one byte each. -/
theorem ascii_digits (hd : AllDigits ds) : ∀ c ∈ ds, Text.isAscii c = true :=
  fun c hc => Text.isDigit_ofAscii c (hd c hc)

/-! ### Blanks and signs -/

/-- The minus signs are odd in number. -/
def negated (signs : List Char) : Bool :=
  signs.count '-' % 2 == 1

/-- A minus sign, or nothing. -/
def minus (negative : Bool) : List Char :=
  if negative then ['-'] else []

theorem isSign_of_mem_minus {c : Char} (h : c ∈ minus negative) : isSign c = true := by
  cases negative with
  | false => cases h
  | true =>
      rw [List.mem_singleton.mp h]
      rfl

@[simp] theorem negated_minus : negated (minus negative) = negative := by
  cases negative <;> rfl

theorem isBlank_of_isSign {c : Char} (h : isSign c = true) : Ascii.isBlank c = false := by
  simp only [isSign, Bool.or_eq_true, beq_iff_eq] at h
  rcases h with rfl | rfl <;> rfl

theorem isBlank_of_isDigit {c : Char} (h : c.isDigit = true) : Ascii.isBlank c = false := by
  refine Bool.eq_false_iff.mpr fun hb => ?_
  simp only [Ascii.isBlank, Bool.or_eq_true, beq_iff_eq] at hb
  rcases hb with (((rfl | rfl) | rfl) | rfl) | rfl <;> cases h

theorem isSign_of_isDigit {c : Char} (h : c.isDigit = true) : isSign c = false := by
  refine Bool.eq_false_iff.mpr fun hs => ?_
  simp only [isSign, Bool.or_eq_true, beq_iff_eq] at hs
  rcases hs with rfl | rfl <;> cases h

/-- No sign stands in front of the text, and no blank unless signs stand before it. -/
def Opens (signs cs : List Char) : Prop :=
  ∀ c, cs.head? = some c → isSign c = false ∧ (signs = [] → Ascii.isBlank c = false)

theorem Opens.cons {c : Char} (hb : Ascii.isBlank c = false) (hs : isSign c = false) :
    Opens signs (c :: cs) := by
  intro d hd
  cases hd
  exact ⟨hs, fun _ => hb⟩

theorem opens_digits (hd : AllDigits ds) (hn : ds ≠ []) : Opens signs (ds ++ rest) := by
  obtain ⟨c, cs, rfl⟩ := List.exists_cons_of_ne_nil hn
  have hc := hd c List.mem_cons_self
  exact .cons (isBlank_of_isDigit hc) (isSign_of_isDigit hc)

/-- The signs behind the blanks in front of a text. -/
def signsOf (cs : List Char) : List Char :=
  (cs.dropWhile Ascii.isBlank).takeWhile isSign

/-- What stands behind the blanks and signs in front of a text. -/
def behind (cs : List Char) : List Char :=
  (cs.dropWhile Ascii.isBlank).dropWhile isSign

/-- The blanks and signs in front of a text. -/
def inFront (cs : List Char) : List Char :=
  cs.takeWhile Ascii.isBlank ++ signsOf cs

theorem append_behind (cs : List Char) : inFront cs ++ behind cs = cs := by
  rw [inFront, List.append_assoc, signsOf, behind, List.takeWhile_append_dropWhile,
    List.takeWhile_append_dropWhile]

theorem isBlank_of_mem_takeWhile {c : Char} (h : c ∈ cs.takeWhile Ascii.isBlank) :
    Ascii.isBlank c = true :=
  List.all_eq_true.mp List.all_takeWhile c h

theorem isSign_of_mem_signsOf {c : Char} (h : c ∈ signsOf cs) : isSign c = true :=
  List.all_eq_true.mp List.all_takeWhile c h

theorem ascii_inFront (cs : List Char) : ∀ c ∈ inFront cs, Text.isAscii c = true := by
  refine List.forall_mem_append.mpr ⟨fun c hc => ?_, fun c hc => ?_⟩
  · exact Text.isBlank_ofAscii c (isBlank_of_mem_takeWhile hc)
  · exact isSign_ofAscii c (isSign_of_mem_signsOf hc)

theorem opens_behind (cs : List Char) : Opens (signsOf cs) (behind cs) := by
  intro c hc
  have hs := List.head?_dropWhile_not isSign (cs.dropWhile Ascii.isBlank)
  rw [show ((cs.dropWhile Ascii.isBlank).dropWhile isSign).head? = some c from hc] at hs
  refine ⟨by simpa using hs, fun hn => ?_⟩
  have hb := List.head?_dropWhile_not Ascii.isBlank cs
  have he : signsOf cs ++ behind cs = cs.dropWhile Ascii.isBlank :=
    List.takeWhile_append_dropWhile
  rw [← he, hn, List.nil_append, hc] at hb
  simpa using hb

theorem parse_eq (cs : List Char) :
    parse cs = (unsigned (negated (signsOf cs)) (behind cs)).map fun r =>
      (r.1, cs.length - r.2.length) := by
  unfold parse
  show (unsigned (negated (signsOf cs)) (behind cs) >>= fun r => _) = _
  cases unsigned (negated (signsOf cs)) (behind cs) <;> rfl

theorem behind_append (hb : ∀ c ∈ blanks, Ascii.isBlank c = true)
    (hs : ∀ c ∈ signs, isSign c = true) (ho : Opens signs cs) :
    signsOf (blanks ++ (signs ++ cs)) = signs ∧ behind (blanks ++ (signs ++ cs)) = cs := by
  have hf : ∀ c, (signs ++ cs).head? = some c → Ascii.isBlank c = false := by
    cases signs with
    | nil => exact fun c hc => (ho c hc).2 rfl
    | cons d ds =>
        intro c hc
        cases hc
        exact isBlank_of_isSign (hs d List.mem_cons_self)
  rw [signsOf, behind, (takeWhile_run hb hf).2]
  exact takeWhile_run hs fun c hc => (ho c hc).1

/-- A number is read behind blanks and signs as it is read without them, under its sign. -/
theorem parse_behind {w : List Char} {r : Except NumberError Number}
    (hb : ∀ c ∈ blanks, Ascii.isBlank c = true) (hs : ∀ c ∈ signs, isSign c = true)
    (ho : Opens signs (w ++ rest))
    (hu : unsigned (negated signs) (w ++ rest) = r.map fun n => (n, rest)) :
    parse (blanks ++ (signs ++ (w ++ rest))) =
      r.map fun n => (n, (blanks ++ (signs ++ w)).length) := by
  have hl : (blanks ++ (signs ++ (w ++ rest))).length - rest.length =
      (blanks ++ (signs ++ w)).length := by
    simp only [List.length_append]
    omega
  obtain ⟨hsigns, hbehind⟩ := behind_append hb hs ho
  rw [parse_eq, hsigns, hbehind, hu]
  cases r with
  | error e => rfl
  | ok n =>
      show Except.ok (n, _) = Except.ok (n, _)
      rw [hl]

/-- A number behind signs only. -/
theorem parse_signs {w : List Char} {r : Except NumberError Number}
    (hs : ∀ c ∈ signs, isSign c = true) (ho : Opens signs (w ++ rest))
    (hu : unsigned (negated signs) (w ++ rest) = r.map fun n => (n, rest)) :
    parse (signs ++ (w ++ rest)) = r.map fun n => (n, (signs ++ w).length) := by
  have hb : ∀ c ∈ ([] : List Char), Ascii.isBlank c = true := nofun
  exact parse_behind hb hs ho hu

/-! ### Reals -/

/-- A real behind signs, unless it is too large. -/
def asReal (negative : Bool) (f : Float) : Except NumberError Number :=
  if f.isInf then .error .valueTooLarge else .ok (.real (if negative then -f else f))

/-- The real nearest to digits, so many of which stand behind the point. -/
def decimalReal (ds : List Char) (places : Nat) : Float :=
  Float.ofScientific (value ds) (0 < places) places

theorem real_eq (negative : Bool) (cs : List Char) :
    real negative cs = (asReal negative (spanReal cs).1).map fun n => (n, (spanReal cs).2) := by
  unfold real asReal
  dsimp only
  split <;> rfl

/-- The real of digits without an exponent behind them. -/
theorem ofScientific_places (ds : List Char) (places : Nat) :
    Float.ofScientific (value ds) (decide ((0 : Int) - places < 0)) ((0 : Int) - places).natAbs =
      decimalReal ds places := by
  have hs : decide ((0 : Int) - places < 0) = decide (0 < places) := decide_eq_decide.mpr (by omega)
  have hn : ((0 : Int) - places).natAbs = places := by omega
  rw [hs, hn, decimalReal]

theorem spanReal_digits (hd : AllDigits ds) (hr : Halts rest)
    (hn : ∀ c, rest.head? = some c → c ∉ ['.', 'e', 'E']) :
    spanReal (ds ++ rest) = (decimalReal ds 0, rest) := by
  have hf : spanFraction rest = ([], rest) := by
    unfold spanFraction
    split
    · exact absurd (by decide) (hn '.' rfl)
    · rfl
  have he : spanExponent rest = (0, rest) := spanExponent_other rest fun c hc h => by
    refine hn c h ?_
    rcases hc with rfl | rfl <;> decide
  simp only [spanReal, spanDigits_append_of_halts hd hr, hf, he, List.append_nil, List.length_nil,
    ofScientific_places]

theorem spanReal_decimal (hd : AllDigits ds) (hf : AllDigits fraction) (hr : Halts rest)
    (hn : ∀ c, rest.head? = some c → c ≠ 'e' ∧ c ≠ 'E') :
    spanReal (ds ++ '.' :: (fraction ++ rest)) =
      (decimalReal (ds ++ fraction) fraction.length, rest) := by
  have he : spanExponent rest = (0, rest) := spanExponent_other rest fun c hc h => by
    obtain ⟨h₁, h₂⟩ := hn c h
    exact hc.elim h₁ h₂
  simp only [spanReal, spanDigits_append_of_halts hd (.cons (c := '.') rfl), spanFraction,
    spanDigits_append_of_halts hf hr, he, ofScientific_places]

/-! ### Whole numbers and decimals -/

variable (negative)

/-- Digits as an integer, if that is a word, and as a real otherwise. -/
def asInteger (ds : List Char) : Except NumberError Number :=
  match Word.checked (value ds) with
  | some n => .ok (.int (if negative then -n else n))
  | none => asReal negative (decimalReal ds 0)

/-- Digits with nothing behind them that could go on. -/
theorem unsigned_digits (hd : AllDigits ds) (hr : Halts rest)
    (hn : ∀ c, rest.head? = some c → c ∉ [':', '.', 'e', 'E']) :
    unsigned negative (ds ++ rest) = (asInteger negative ds).map fun n => (n, rest) := by
  have hs := spanDigits_append_of_halts hd hr
  have hw : ∀ c, rest.head? = some c → c ∉ ['.', 'e', 'E'] := fun c hc hm =>
    hn c hc (List.mem_cons_of_mem _ hm)
  rw [unsigned_whole _ _ (by rw [hs]; exact hn), hs, asInteger]
  cases Word.checked (value ds) with
  | some n => rfl
  | none =>
      dsimp only
      rw [real_eq, spanReal_digits hd hr hw]

/-- Digits with at most six more behind a point, as a decimal if the whole part is a word, and as a
real otherwise. -/
def asDecimal (ds fraction : List Char) : Except NumberError Number :=
  match Word.checked (value ds) with
  | some sec => .ok (pair negative sec (microseconds fraction))
  | none => asReal negative (decimalReal (ds ++ fraction) fraction.length)

/-- Digits, a point and at most six more, with nothing behind them that could go on. -/
theorem unsigned_decimal (hd : AllDigits ds) (hf : AllDigits fraction) (hl : fraction.length ≤ 6)
    (hr : Halts rest) (hn : ∀ c, rest.head? = some c → c ≠ 'e' ∧ c ≠ 'E') :
    unsigned negative (ds ++ '.' :: (fraction ++ rest)) =
      (asDecimal negative ds fraction).map fun n => (n, rest) := by
  have hs : spanDigits (ds ++ '.' :: (fraction ++ rest)) = _ :=
    spanDigits_append_of_halts hd (.cons rfl)
  have he : (rest.head? == some 'e') = false ∧ (rest.head? == some 'E') = false := by
    constructor <;> refine Bool.eq_false_iff.mpr fun h => ?_
    · exact (hn 'e' (beq_iff_eq.mp h)).1 rfl
    · exact (hn 'E' (beq_iff_eq.mp h)).2 rfl
  rw [unsigned_point _ _ (congrArg Prod.snd hs), hs, spanDigits_append_of_halts hf hr, asDecimal]
  cases Word.checked (value ds) with
  | some sec => simp [he, Nat.not_lt.mpr hl, Except.map]
  | none =>
      dsimp only
      rw [real_eq, spanReal_decimal hd hf hr hn]

end ExprEngine.Literal
