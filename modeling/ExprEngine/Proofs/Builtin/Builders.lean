import ExprEngine.Proofs.Builtin.Arguments
import ExprEngine.Proofs.Text.Offsets
import Mathlib.Algebra.GroupWithZero.Nat
import Mathlib.Data.List.Forall2

/-!
# Texts built from counts

`pad` and `strrep` build texts whose length is given by numbers, and refuse to build one of more
than `greatestLength` characters.  The counters that the length is summed up in are words, which are
too short for the length of some texts, but not for that of one which is built.

* `Builtin.IsField`: the field of a text and a width.
* `Builtin.padded_apply`: `pad` from a number of characters on.
* `Builtin.paddedByWords`, `Builtin.repeatedByWords`: both with counters of 64 bits.
* `Builtin.builders_bounded`: what is built, when it is refused, and that the counters suffice.
-/

namespace ExprEngine.Builtin

open Machine

/-! ### Fields -/

/-- The arguments of `pad`: texts with their widths, and a last one without. -/
def padArguments (fields : List (Value × Int64)) (last : Option Value) : List Value :=
  fields.flatMap (fun f => [f.1, .int f.2]) ++ last.toList

/-- A text that is to be padded, and its width. -/
abbrev Row := List Char × Int64

/-- What is to be padded: a last text without a width has width zero. -/
def padRows (m : Machine) (fields : List (Value × Int64)) (last : Option Value) : List Row :=
  fields.map (fun f => (m.charsOf f.1, f.2)) ++ last.toList.map fun v => (m.charsOf v, 0)

namespace Row

/-- As many characters as the text has, or as the width says. -/
def length (r : Row) : ℕ :=
  max r.1.length r.2.toInt.natAbs

/-- The characters of all fields. -/
def total (rows : List Row) : ℕ :=
  (rows.map length).sum

theorem total_cons (r : Row) (rows : List Row) : total (r :: rows) = r.length + total rows :=
  List.sum_cons

end Row

/-- The field of a text: as many characters as its width says, or as the text has if these are more,
with blanks before the text if the width is positive and behind it if not. -/
structure IsField (r : Row) (piece : List Char) : Prop where
  length : piece.length = r.length
  before : 0 < r.2 → ∃ n, piece = List.replicate n ' ' ++ r.1
  behind : ¬0 < r.2 → ∃ n, piece = r.1 ++ List.replicate n ' '

theorem isField_field (r : Row) : IsField r (field r.1 r.2.toInt) where
  length := length_field _ _
  before h := ⟨_, if_pos (Int64.lt_iff_toInt_lt.mp h)⟩
  behind h := ⟨_, if_neg (h ∘ Int64.lt_iff_toInt_lt.mpr)⟩

theorem forall₂_isField (rows : List Row) :
    List.Forall₂ IsField rows (rows.map fun r => field r.1 r.2.toInt) := by
  induction rows with
  | nil => exact .nil
  | cons r rows ih => exact .cons (isField_field r) ih

/-! ### Padding -/

variable {m : Machine}

theorem fail_or_apply {α : Type} {c : Prop} [Decidable c] (e : EvalError) (x : Eval α) :
    (if c then fail e else x) m = if c then .error e.halt m else x m := by
  split <;> rfl

/-- One text and its width: the field, if it is not too much. -/
theorem padded_cons (used : ℕ) (v : Value) (w : Int64) (rest : List Value) :
    padded used (v :: .int w :: rest) m =
      if greatestLength < used + Row.length (m.charsOf v, w) then
        .error (EvalError.resultTooLong .pad).halt m
      else (return field (m.charsOf v) w.toInt ++
        (← padded (used + Row.length (m.charsOf v, w)) rest) : Eval (List Char)) m := by
  simp only [padded]
  rw [bind_of_ok (show getSession m = .ok m.session m from rfl), bind_of_ok (observe_int w)]
  exact fail_or_apply _ _

theorem padded_apply (fields : List (Value × Int64)) (last : Option Value) {used : ℕ}
    (hu : used ≤ greatestLength) :
    padded used (padArguments fields last) m =
      if greatestLength < used + Row.total (padRows m fields last) then
        .error (EvalError.resultTooLong .pad).halt m
      else .ok ((padRows m fields last).flatMap fun r => field r.1 r.2.toInt) m := by
  induction fields generalizing used with
  | nil =>
      cases last with
      | none => exact (if_neg (Nat.not_lt.mpr hu)).symm
      | some v =>
          have hlength : Row.total (padRows m [] (some v)) = (m.charsOf v).length :=
            Nat.max_zero _
          have hfield : (padRows m [] (some v)).flatMap (fun r => field r.1 r.2.toInt) =
              m.charsOf v := by
            simp [padRows, field]
          rw [hlength, hfield]
          simp only [padArguments, List.flatMap_nil, List.nil_append, Option.toList_some, padded]
          rw [bind_of_ok (show getSession m = .ok m.session m from rfl)]
          exact fail_or_apply _ _
  | cons f fields ih =>
      have hargs : padArguments (f :: fields) last =
          f.1 :: .int f.2 :: padArguments fields last := rfl
      have hrows : padRows m (f :: fields) last =
          (m.charsOf f.1, f.2) :: padRows m fields last := rfl
      rw [hargs, padded_cons, hrows, Row.total_cons]
      -- too much for this field, too much for one behind it, or all of it fits
      by_cases hlong : greatestLength < used + Row.length (m.charsOf f.1, f.2)
      · rw [if_pos hlong, if_pos (by omega)]
      · rw [if_neg hlong]
        have h := ih (Nat.not_lt.mp hlong)
        by_cases hrest : greatestLength <
            used + Row.length (m.charsOf f.1, f.2) + Row.total (padRows m fields last)
        · rw [if_pos hrest] at h
          rw [if_pos (by omega), bind_of_error h]
        · rw [if_neg hrest] at h
          rw [if_neg (by omega), bind_of_ok h]
          rfl

/-! ### Counters of 64 bits -/

namespace Counter

/-- The sum, or the greatest counter. -/
def add (x y : UInt64) : UInt64 :=
  UInt64.ofNatClamp (x.toNat + y.toNat)

/-- The difference, or zero. -/
def sub (x y : UInt64) : UInt64 :=
  if x < y then 0 else x - y

/-- The product, if it is a counter. -/
def mul? (x y : UInt64) : Option UInt64 :=
  if x.toNat * y.toNat < 2 ^ 64 then some (x * y) else none

/-- A number without its sign; that of the least one is a counter, though no number. -/
def abs (n : Int64) : UInt64 :=
  UInt64.ofNat n.toInt.natAbs

theorem toNat_add {x y : UInt64} (h : x.toNat + y.toNat < 2 ^ 64) :
    (add x y).toNat = x.toNat + y.toNat := by
  have hsize : x.toNat + y.toNat < UInt64.size := h
  rw [add, UInt64.ofNatClamp, dif_pos hsize]
  rfl

theorem toNat_sub (x y : UInt64) : (sub x y).toNat = x.toNat - y.toNat := by
  rw [sub]
  by_cases h : x < y
  · rw [if_pos h, Nat.sub_eq_zero_of_le (Nat.le_of_lt (UInt64.lt_iff_toNat_lt.mp h))]
    rfl
  · rw [if_neg h]
    exact UInt64.toNat_sub_of_le x y (UInt64.not_lt.mp h)

theorem toNat_abs (n : Int64) : (abs n).toNat = n.toInt.natAbs := by
  have hle : n.toInt ≤ 2 ^ 63 - 1 := n.toInt_le
  have hge : -2 ^ 63 ≤ n.toInt := n.le_toInt
  rw [abs, UInt64.toNat_ofNat', Nat.mod_eq_of_lt (by omega)]

end Counter

/-- The texts padded one after another, the characters so far being counted in 64 bits. -/
def paddedByWords (used : UInt64) : List Row → Option (List Char)
  | [] => some []
  | (cs, width) :: rows =>
    let len := UInt64.ofNat cs.length
    let fill := Counter.sub (Counter.abs width) len
    let used := Counter.add (Counter.add used len) fill
    if UInt64.ofNat greatestLength < used then none
    else
      let blanks := List.replicate fill.toNat ' '
      (paddedByWords used rows).map ((if 0 < width then blanks ++ cs else cs ++ blanks) ++ ·)

/-- So many copies of a text, the characters being counted in 64 bits. -/
def repeatedByWords (cs : List Char) (n : Int64) : Option (List Char) :=
  let n := (max n 0).toUInt64
  match Counter.mul? (UInt64.ofNat cs.length) n with
  | some len =>
    if UInt64.ofNat greatestLength < len then none else some (List.replicate n.toNat cs).flatten
  | none => none

theorem toNat_ofNat_length {cs : List Char} (h : Text.Addressable cs) :
    (UInt64.ofNat cs.length).toNat = cs.length := by
  have hlt := h.length_lt
  rw [UInt64.toNat_ofNat', Nat.mod_eq_of_lt (by omega)]

theorem toNat_fill {r : Row} (h : Text.Addressable r.1) :
    (Counter.sub (Counter.abs r.2) (UInt64.ofNat r.1.length)).toNat =
      r.2.toInt.natAbs - r.1.length := by
  rw [Counter.toNat_sub, Counter.toNat_abs, toNat_ofNat_length h]

theorem toNat_greatestLength : (UInt64.ofNat greatestLength).toNat = greatestLength := by
  decide

/-- No counter is exceeded by one more field. -/
theorem toNat_count {r : Row} (h : Text.Addressable r.1) {used : UInt64}
    (hu : used.toNat ≤ greatestLength) :
    (Counter.add (Counter.add used (UInt64.ofNat r.1.length))
      (Counter.sub (Counter.abs r.2) (UInt64.ofNat r.1.length))).toNat = used.toNat + r.length := by
  have hlt := h.length_lt
  have hle : r.2.toInt ≤ 2 ^ 63 - 1 := r.2.toInt_le
  have hge : -2 ^ 63 ≤ r.2.toInt := r.2.le_toInt
  have hg : greatestLength < 2 ^ 62 := by decide
  have hfill := toNat_fill h
  have hsum : (Counter.add used (UInt64.ofNat r.1.length)).toNat = used.toNat + r.1.length := by
    rw [Counter.toNat_add, toNat_ofNat_length h]
    rw [toNat_ofNat_length h]
    omega
  rw [Counter.toNat_add, hsum, hfill, Row.length]
  · omega
  · rw [hsum, hfill]
    omega

theorem paddedByWords_eq {rows : List Row} (h : ∀ r ∈ rows, Text.Addressable r.1)
    {used : UInt64} (hu : used.toNat ≤ greatestLength) :
    paddedByWords used rows =
      if greatestLength < used.toNat + Row.total rows then none
      else some (rows.flatMap fun r => field r.1 r.2.toInt) := by
  induction rows generalizing used with
  | nil => exact (if_neg (Nat.not_lt.mpr hu)).symm
  | cons r rows ih =>
      have hr := h r List.mem_cons_self
      have hcount := toNat_count hr hu
      have hblanks : (if 0 < r.2 then List.replicate (r.2.toInt.natAbs - r.1.length) ' ' ++ r.1
          else r.1 ++ List.replicate (r.2.toInt.natAbs - r.1.length) ' ') =
            field r.1 r.2.toInt := by
        simp only [field, Int64.lt_iff_toInt_lt, Int64.toInt_zero]
      simp only [paddedByWords, UInt64.lt_iff_toNat_lt, toNat_greatestLength, hcount, toNat_fill hr,
        hblanks, Row.total_cons]
      by_cases hlong : greatestLength < used.toNat + r.length
      · rw [if_pos hlong, if_pos (by omega)]
      · rw [if_neg hlong, ih (fun r hr => h r (List.mem_cons_of_mem _ hr))
          (hcount ▸ Nat.not_lt.mp hlong), hcount, Nat.add_assoc]
        split <;> rfl

theorem toNat_max_zero (n : Int64) : (max n 0).toUInt64.toNat = n.toInt.toNat := by
  have hmax := Word.toInt_max n 0
  rw [Int64.toInt_zero] at hmax
  rw [Int64.toNat_toUInt64_of_le, Int64.toNatClampNeg, hmax]
  · omega
  · rw [Int64.le_iff_toInt_le, hmax, Int64.toInt_zero]
    omega

theorem copies_eq (n : ℕ) (cs : List Char) : copies n cs = (List.replicate n cs).flatten := by
  rw [copies]
  split
  · next h => simp [List.isEmpty_iff.mp h]
  · rfl

theorem repeatedByWords_eq {cs : List Char} (h : Text.Addressable cs) (n : Int64) :
    repeatedByWords cs n =
      if greatestLength < cs.length * n.toInt.toNat then none
      else some (List.replicate n.toInt.toNat cs).flatten := by
  have hg : greatestLength < 2 ^ 64 := by decide
  simp only [repeatedByWords, Counter.mul?, toNat_ofNat_length h, toNat_max_zero]
  by_cases hfit : cs.length * n.toInt.toNat < 2 ^ 64
  · simp only [if_pos hfit, UInt64.lt_iff_toNat_lt, toNat_greatestLength, UInt64.toNat_mul,
      toNat_ofNat_length h, toNat_max_zero, Nat.mod_eq_of_lt hfit]
  · rw [if_neg hfit, if_pos (by omega)]

/-! ### Bounds -/

section

variable (evaluate : String → Eval Value) (m : Machine)

/-- What a builder answers: the text that was built, or that it would be too long. -/
def built (b : Builtin) (r : Option (List Char)) : EStateM.Result Halt Machine Value :=
  r.elim (.error (EvalError.resultTooLong b).halt m) fun cs => .ok (textValue cs) m

/-- **Texts are built exactly up to the greatest length.**  If the fields of all texts together have
at most so many characters, `pad` gives the fields, one behind the other, and `strrep` the copies;
if not, both fail, and the machine is as it was.  With counters of 64 bits they do the same for all
texts and numbers: what a counter cannot hold is too long, and what is not too long it holds. -/
theorem builders_bounded :
    (∀ (fields : List (Value × Int64)) (last : Option Value),
      (Row.total (padRows m fields last) ≤ greatestLength → ∃ pieces,
        List.Forall₂ IsField (padRows m fields last) pieces ∧
          call evaluate .pad (padArguments fields last) m = .ok (textValue pieces.flatten) m) ∧
        (greatestLength < Row.total (padRows m fields last) →
          call evaluate .pad (padArguments fields last) m =
            .error (EvalError.resultTooLong .pad).halt m) ∧
        ((∀ r ∈ padRows m fields last, Text.Addressable r.1) →
          call evaluate .pad (padArguments fields last) m =
            built m .pad (paddedByWords 0 (padRows m fields last)))) ∧
      ∀ (v : Value) (n : Int64),
        ((m.charsOf v).length * n.toInt.toNat ≤ greatestLength →
          call evaluate .strrep [v, .int n] m =
            .ok (textValue (List.replicate n.toInt.toNat (m.charsOf v)).flatten) m) ∧
        (greatestLength < (m.charsOf v).length * n.toInt.toNat →
          call evaluate .strrep [v, .int n] m = .error (EvalError.resultTooLong .strrep).halt m) ∧
        (Text.Addressable (m.charsOf v) →
          call evaluate .strrep [v, .int n] m =
            built m .strrep (repeatedByWords (m.charsOf v) n)) := by
  refine ⟨fun fields last => ?_, fun v n => ?_⟩
  · have hpad := padded_apply (m := m) fields last (Nat.zero_le greatestLength)
    rw [Nat.zero_add] at hpad
    have hlong (h : greatestLength < Row.total (padRows m fields last)) :
        call evaluate .pad (padArguments fields last) m =
          .error (EvalError.resultTooLong .pad).halt m := by
      rw [if_pos h] at hpad
      exact bind_of_error hpad _
    have hfits (h : ¬greatestLength < Row.total (padRows m fields last)) :
        call evaluate .pad (padArguments fields last) m =
          .ok (textValue ((padRows m fields last).flatMap fun r => field r.1 r.2.toInt)) m := by
      rw [if_neg h] at hpad
      exact bind_of_ok hpad _
    refine ⟨fun h => ⟨_, forall₂_isField _, ?_⟩, hlong, fun h => ?_⟩
    · rw [hfits (Nat.not_lt.mpr h), List.flatMap_def]
    · have hzero : (0 : UInt64).toNat ≤ greatestLength := Nat.zero_le _
      rw [paddedByWords_eq h hzero, UInt64.toNat_zero, Nat.zero_add]
      by_cases hl : greatestLength < Row.total (padRows m fields last)
      · rw [hlong hl, if_pos hl]
        rfl
      · rw [hfits hl, if_neg hl]
        rfl
  · rw [call_strrep, copies_eq]
    refine ⟨fun h => if_neg (Nat.not_lt.mpr h), fun h => if_pos h, fun h => ?_⟩
    rw [repeatedByWords_eq h]
    split <;> rfl

end

/-- Two fields and a last text, and a width that is no length of a text. -/
theorem builders_bounded_atTheLeastWidth :
    (Row.total (padRows {} [(.text "ab", 4), (.text "c", -3)] (some (.text "d"))) ≤
        greatestLength ∧
      greatestLength < Row.total (padRows {} [(.text "a", Int64.minValue)] none)) ∧
      (∃ pieces, List.Forall₂ IsField
          [("ab".toList, 4), ("c".toList, -3), ("d".toList, 0)] pieces ∧
        call (evaluate 0) .pad [.text "ab", .int 4, .text "c", .int (-3), .text "d"] {} =
          .ok (textValue pieces.flatten) {}) ∧
      call (evaluate 0) .pad [.text "a", .int Int64.minValue] {} =
        .error (EvalError.resultTooLong .pad).halt {} := by
  have hfits : Row.total (padRows {} [(.text "ab", 4), (.text "c", -3)] (some (.text "d"))) ≤
      greatestLength := by decide +kernel
  have hlong : greatestLength < Row.total (padRows {} [(.text "a", Int64.minValue)] none) := by
    decide +kernel
  exact ⟨⟨hfits, hlong⟩, ((builders_bounded (evaluate 0) {}).1 _ _).1 hfits,
    ((builders_bounded (evaluate 0) {}).1 _ _).2.1 hlong⟩

end ExprEngine.Builtin
