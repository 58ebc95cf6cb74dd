import ExprEngine.Proofs.Machine.Operators

/-!
# Calls of text functions

What the functions on texts make of their arguments: texts are any values, each standing for its
characters, and a position is an integer that may be left out.  None of these calls changes the
machine.

* `Machine.charsOf`: the characters that a value stands for.
* `Builtin.positionOf`: the position of an argument that may be left out.
* `Builtin.call_strstr` and its likes: the result of a call by the characters of its arguments.
-/

namespace ExprEngine

/-! ### Values -/

theorem Word.toInt_max (x y : Int64) : (max x y).toInt = max x.toInt y.toInt := by
  have hmax : max x y = if x ≤ y then y else x := rfl
  rw [hmax]
  split
  · next h => rw [Int.max_eq_right (Int64.le_iff_toInt_le.mp h)]
  · next h => rw [Int.max_eq_left (Int.le_of_lt (Int.not_le.mp (h ∘ Int64.le_iff_toInt_le.mpr)))]

/-- The characters that a value stands for. -/
def Machine.charsOf (m : Machine) (v : Value) : List Char :=
  (m.session.toText v).toList

namespace Builtin

open Machine

theorem charsOf_textValue (m : Machine) (cs : List Char) : m.charsOf (textValue cs) = cs :=
  String.toList_ofList

theorem textValue_charsOf (m : Machine) (v : Value) :
    textValue (m.charsOf v) = .text (m.session.toText v) := by
  rw [textValue, charsOf, String.ofList_toList]

/-! ### Arguments -/

section

variable {m : Machine} {args : List Value} {i : Nat}

theorem argument_apply {v : Value} (h : args[i]? = some v) : argument args i m = .ok v m := by
  rw [argument, h]
  rfl

theorem chars_apply {v : Value} (h : args[i]? = some v) :
    chars args i m = .ok (m.charsOf v) m := by
  rw [chars, bind_of_ok (argument_apply h)]
  rfl

theorem observe_int (n : Int64) : observe (·.toInt (.int n)) m = .ok n m := by
  have hs : m.session.record [] = m.session := m.session.record_nil
  show EStateM.Result.ok n { m with session := m.session.record [] } = _
  rw [hs]

theorem integer_apply {n : Int64} (h : args[i]? = some (.int n)) :
    integer args i m = .ok n m := by
  rw [integer, bind_of_ok (argument_apply h)]
  exact observe_int n

/-- An argument that may be left out. -/
def optional (p : Option Int64) : List Value :=
  (p.map Value.int).toList

theorem second_optional (v : Value) (p : Option Int64) :
    (v :: optional p)[1]? = p.map Value.int := by
  cases p <;> rfl

theorem third_optional (v w : Value) (p : Option Int64) :
    (v :: w :: optional p)[2]? = p.map Value.int := by
  cases p <;> rfl

/-- The position of an argument that may be left out. -/
def positionOf (absent last : Nat) (p : Option Int64) : Nat :=
  p.elim absent fun n => position n.toInt last

theorem positionOf_le {absent last : Nat} (h : absent ≤ last) (p : Option Int64) :
    positionOf absent last p ≤ last := by
  cases p with
  | none => exact h
  | some n => exact position_le _ _

theorem position_natCast (n last : Nat) : position n last = min n last := by
  rw [position, if_neg (Int.not_lt.mpr (Int.natCast_nonneg n)), Int.toNat_natCast]

theorem positionOr_apply {p : Option Int64} (absent last : Nat) (h : args[i]? = p.map .int) :
    positionOr absent args i last m = .ok (positionOf absent last p) m := by
  unfold positionOr
  cases p with
  | none =>
      rw [if_neg (Nat.not_lt.mpr (List.getElem?_eq_none_iff.mp h))]
      rfl
  | some n =>
      rw [if_pos (List.getElem?_eq_some_iff.mp h).1, bind_of_ok (integer_apply h)]
      rfl

end

/-! ### Calls -/

section

variable (evaluate : String → Eval Value) (m : Machine) (v w : Value) (p : Option Int64)
  (n : Int64)

theorem call_strlen :
    call evaluate .strlen [v] m = .ok (.count (m.charsOf v).length) m := by
  simp only [call]
  rw [bind_of_ok (chars_apply rfl)]
  rfl

theorem call_strcat (args : List Value) :
    call evaluate .strcat args m = .ok (.text (String.join (args.map m.session.toText))) m :=
  rfl

theorem call_strchr :
    call evaluate .strchr (v :: w :: optional p) m = .ok (indexValue (firstIndex?
      (m.charsOf w).contains (positionOf 0 (m.charsOf v).length p) (m.charsOf v))) m := by
  simp only [call]
  rw [bind_of_ok (chars_apply rfl), bind_of_ok (chars_apply rfl),
    bind_of_ok (positionOr_apply _ _ (third_optional v w p))]
  rfl

theorem call_strrchr :
    call evaluate .strrchr (v :: w :: optional p) m = .ok (indexValue (lastIndex?
      (m.charsOf w).contains (positionOf ((m.charsOf v).length - 1) ((m.charsOf v).length - 1) p)
        (m.charsOf v))) m := by
  simp only [call]
  rw [bind_of_ok (chars_apply rfl), bind_of_ok (chars_apply rfl)]
  split
  · next h =>
    rw [List.isEmpty_iff.mp h]
    rfl
  · rw [bind_of_ok (positionOr_apply _ _ (third_optional v w p))]
    rfl

theorem call_strstr :
    call evaluate .strstr (v :: w :: optional p) m = .ok (indexValue (firstPlace? (m.charsOf w)
      (positionOf 0 (m.charsOf v).length p) (m.charsOf v))) m := by
  simp only [call]
  rw [bind_of_ok (chars_apply rfl), bind_of_ok (chars_apply rfl),
    bind_of_ok (positionOr_apply _ _ (third_optional v w p))]
  rfl

theorem call_substr :
    call evaluate .substr (v :: .int n :: optional p) m = .ok (textValue
      (let start := position n.toInt (m.charsOf v).length
      let left := (m.charsOf v).length - start
      Text.slice (m.charsOf v) start (positionOf left left p))) m := by
  simp only [call]
  rw [part, bind_of_ok (chars_apply rfl), bind_of_ok (integer_apply rfl),
    bind_of_ok (positionOr_apply _ _ (third_optional v (.int n) p))]
  rfl

/-- The part of a text up to a position. -/
theorem call_front (n : Int64) :
    call evaluate .substr [v, .int 0, .int n] m =
      .ok (textValue ((m.charsOf v).take (position n.toInt (m.charsOf v).length))) m := by
  have hzero : position (0 : Int64).toInt (m.charsOf v).length = 0 :=
    (position_natCast 0 _).trans (Nat.zero_min _)
  have h := call_substr evaluate m v (some n) 0
  simp only [positionOf, Option.elim, hzero, Nat.sub_zero, Text.slice, List.drop_zero] at h
  exact h

/-- The part of a text from a position on. -/
theorem call_back (n : Int64) :
    call evaluate .substr [v, .int n] m =
      .ok (textValue ((m.charsOf v).drop (position n.toInt (m.charsOf v).length))) m := by
  have h := call_substr evaluate m v none n
  simp only [positionOf, Option.elim, Text.slice, ← List.length_drop, List.take_length] at h
  exact h

theorem inCase_apply (f : Char → Char) :
    inCase f (v :: optional p) m = .ok (textValue (mapFirst f (positionOf (m.charsOf v).length
      (m.charsOf v).length p) (m.charsOf v))) m := by
  rw [inCase, bind_of_ok (chars_apply rfl),
    bind_of_ok (positionOr_apply _ _ (second_optional v p))]
  rfl

theorem call_strcmp :
    call evaluate .strcmp [v, w] m =
      .ok (orderValue (Text.order (m.charsOf v) (m.charsOf w))) m := by
  simp only [call]
  rw [bind_of_ok (chars_apply rfl), bind_of_ok (chars_apply rfl)]
  rfl

theorem call_strncmp :
    call evaluate .strncmp [v, w, .int n] m = .ok (orderValue
      (if n < 0 then Text.order (m.charsOf v) (m.charsOf w)
      else Text.order ((m.charsOf v).take n.toInt.toNat) ((m.charsOf w).take n.toInt.toNat))) m := by
  simp only [call]
  rw [bind_of_ok (chars_apply rfl), bind_of_ok (chars_apply rfl), bind_of_ok (integer_apply rfl)]
  split <;> rfl

theorem call_strrep :
    call evaluate .strrep [v, .int n] m =
      if greatestLength < (m.charsOf v).length * n.toInt.toNat then
        .error (EvalError.resultTooLong .strrep).halt m
      else .ok (textValue (copies n.toInt.toNat (m.charsOf v))) m := by
  simp only [call]
  rw [repeated, bind_of_ok (chars_apply rfl), bind_of_ok (integer_apply rfl)]
  split <;> rfl

end

end Builtin
end ExprEngine
