import ExprEngine.Proofs.Builtin.Searches

/-!
# Negative positions

A negative position counts back from the greatest position that a function takes.  That is the end
of the text for all functions but `strrchr`, for which it is the last character: there minus one is
not the last character but the one before it.

* `Builtin.toInt_nearest`: a position is the same when words are clamped, as their sums are words.
* `Builtin.position_back`: the position that a negative one counts back to.
* `Builtin.lastIndex?_eq_iff`: when it matters to `strrchr` that it starts one character earlier.
* `Builtin.negative_positions`: the positions of all six functions.
-/

namespace ExprEngine.Builtin

open Machine

/-! ### Clamping -/

/-- A position clamped in words, the sum with a negative one being the nearest word. -/
def nearest (n last : Int64) : Int64 :=
  if last < n then last
  else if n < 0 then max (Word.clamp (last.toInt + n.toInt)) 0
  else n

theorem toInt_nearest {n last : Int64} (h : 0 ≤ last) :
    (nearest n last).toInt = position n.toInt last.toInt.toNat := by
  have hlast : 0 ≤ last.toInt := Int64.le_iff_toInt_le.mp h
  have hbounds : last.toInt ≤ 2 ^ 63 - 1 ∧ -2 ^ 63 ≤ n.toInt := ⟨last.toInt_le, n.le_toInt⟩
  rw [nearest, position]
  simp only [Int64.lt_iff_toInt_lt, Int64.toInt_zero]
  by_cases hbeyond : last.toInt < n.toInt
  · rw [if_pos hbeyond, if_neg (by omega)]
    omega
  rw [if_neg hbeyond]
  by_cases hneg : n.toInt < 0
  · have hsum : (Word.clamp (last.toInt + n.toInt)).toInt = last.toInt + n.toInt := by
      refine Int64.toInt_ofIntClamp ?_ ?_
      · rw [Int64.toInt_minValue]
        omega
      · rw [Int64.toInt_maxValue]
        omega
    rw [if_pos hneg, if_pos hneg, Word.toInt_max, hsum, Int64.toInt_zero]
    omega
  · rw [if_neg hneg, if_neg hneg]
    omega

/-- A negative position counts back to the one of as many characters less, or to the first. -/
theorem position_back {k : ℕ} (hk : 0 < k) (last : ℕ) :
    position (-k) last = last - k := by
  unfold position
  rw [if_pos (by omega)]
  omega

/-! ### The last character of a set -/

variable {S : Set ℕ} {r r' : Option ℕ} {p : Char → Bool} {cs : List Char} {stop k : ℕ}

theorem Answer.greatest_unique (h : Answer IsGreatest S r) (h' : Answer IsGreatest S r') :
    r = r' := by
  cases h with
  | none h =>
      cases h' with
      | none => rfl
      | some h' => exact absurd h'.1 (by rw [h]; exact Set.notMem_empty _)
  | some h =>
      cases h' with
      | none h' => exact absurd h.1 (by rw [h']; exact Set.notMem_empty _)
      | some h' => rw [h.unique h']

/-- A search backwards that starts one character later finds the same, unless it finds this. -/
theorem lastIndex?_eq_iff :
    lastIndex? p stop cs = lastIndex? p (stop + 1) cs ↔ stop + 1 ∉ indices p cs := by
  have h : Answer IsGreatest {k | k ≤ stop ∧ k ∈ indices p cs} (lastIndex? p stop cs) :=
    lastIndex?_answer
  have h' : Answer IsGreatest {k | k ≤ stop + 1 ∧ k ∈ indices p cs} (lastIndex? p (stop + 1) cs) :=
    lastIndex?_answer
  constructor
  · intro heq hm
    have hs : IsGreatest {k | k ≤ stop + 1 ∧ k ∈ indices p cs} (stop + 1) :=
      ⟨⟨Nat.le_refl _, hm⟩, fun j hj => hj.1⟩
    rw [heq, h'.greatest_unique (.some hs)] at h
    cases h with
    | some h => exact Nat.not_succ_le_self stop h.1.1
  · intro hm
    refine h.greatest_unique ?_
    have hset : {k | k ≤ stop ∧ k ∈ indices p cs} = {k | k ≤ stop + 1 ∧ k ∈ indices p cs} := by
      ext k
      refine ⟨fun hk => ⟨Nat.le_succ_of_le hk.1, hk.2⟩, fun hk => ⟨?_, hk.2⟩⟩
      refine Nat.le_of_lt_succ (Nat.lt_of_le_of_ne hk.1 ?_)
      rintro rfl
      exact hm hk.2
    rw [hset]
    exact h'

/-- So it matters where one counts from if the character that far from the end is found. -/
theorem lastIndex?_back_eq_iff (hk : 0 < k) :
    lastIndex? p (cs.length - 1 - k) cs = lastIndex? p (min (cs.length - k) (cs.length - 1)) cs ↔
      cs.length ≤ k ∨ cs.length - k ∉ indices p cs := by
  by_cases hle : cs.length ≤ k
  · rw [show cs.length - 1 - k = 0 by omega, show min (cs.length - k) (cs.length - 1) = 0 by omega]
    exact iff_of_true rfl (.inl hle)
  · have hstop : cs.length - k = cs.length - 1 - k + 1 := by omega
    rw [Nat.min_eq_left (by omega), or_iff_right hle, hstop]
    exact lastIndex?_eq_iff

theorem lastIndex?_le (h : k ∈ lastIndex? p stop cs) : k ≤ stop := by
  have ha : Answer IsGreatest {k | k ≤ stop ∧ k ∈ indices p cs} (lastIndex? p stop cs) :=
    lastIndex?_answer
  rw [h] at ha
  cases ha with
  | some ha => exact ha.1.1

/-- Indices that are words are told apart. -/
theorem indexValue_inj (hr : ∀ k ∈ r, k < 2 ^ 63) (hr' : ∀ k ∈ r', k < 2 ^ 63) :
    indexValue r = indexValue r' ↔ r = r' := by
  refine ⟨fun h => ?_, fun h => by rw [h]⟩
  injection h with h
  injection h with h
  have hn := congrArg Int64.toInt h
  rw [toInt_index hr, toInt_index hr'] at hn
  cases r with
  | none =>
      cases r' with
      | none => rfl
      | some k' => exact absurd hn (by simp only [Option.elim]; omega)
  | some k =>
      cases r' with
      | none => exact absurd hn (by simp only [Option.elim]; omega)
      | some k' => rw [Int.ofNat_inj.mp hn]

/-! ### The six functions -/

section

variable (evaluate : String → Eval Value) (m : Machine) (v w : Value)

/-- **Negative positions count back from the end of the text**, or to its start if it has less
characters, in all functions but `strrchr`: there they count back from the last character.  So it
starts one character before the one that the others start from, and misses that one if it is in the
set. -/
theorem negative_positions {k : ℕ} {back ahead before : Int64} (hk : 0 < k)
    (hback : back.toInt = -k) (hahead : ahead.toInt = ((m.charsOf v).length - k : ℕ))
    (hbefore : before.toInt = ((m.charsOf v).length - 1 - k : ℕ)) :
    (∀ rest : List Value, call evaluate .substr (v :: .int back :: rest) m =
        call evaluate .substr (v :: .int ahead :: rest) m) ∧
      call evaluate .strchr [v, w, .int back] m = call evaluate .strchr [v, w, .int ahead] m ∧
      call evaluate .strstr [v, w, .int back] m = call evaluate .strstr [v, w, .int ahead] m ∧
      call evaluate .toupper [v, .int back] m = call evaluate .toupper [v, .int ahead] m ∧
      call evaluate .tolower [v, .int back] m = call evaluate .tolower [v, .int ahead] m ∧
      call evaluate .strrchr [v, w, .int back] m = call evaluate .strrchr [v, w, .int before] m ∧
      (call evaluate .strrchr [v, w, .int back] m = call evaluate .strrchr [v, w, .int ahead] m ↔
        (m.charsOf v).length ≤ k ∨
          (m.charsOf v).length - k ∉ indices (m.charsOf w).contains (m.charsOf v)) := by
  have hend (absent : ℕ) : positionOf absent (m.charsOf v).length (some back) =
      positionOf absent (m.charsOf v).length (some ahead) := by
    simp only [positionOf, Option.elim, hback, hahead, position_back hk, position_natCast]
    omega
  have hlast (last : ℕ) : positionOf last last (some back) = last - k := by
    rw [positionOf, Option.elim, hback, position_back hk]
  have hcase (f : Char → Char) : inCase f [v, .int back] m = inCase f [v, .int ahead] m := by
    have h := inCase_apply m v (some back) f
    rw [hend] at h
    exact h.trans (inCase_apply m v (some ahead) f).symm
  refine ⟨fun rest => ?_, ?_, ?_, ?_, ?_, ?_, ?_⟩
  · have hstart : position back.toInt (m.charsOf v).length =
        position ahead.toInt (m.charsOf v).length := hend 0
    simp only [call]
    rw [part, part, bind_of_ok (chars_apply rfl), bind_of_ok (chars_apply rfl),
      bind_of_ok (integer_apply rfl), bind_of_ok (integer_apply rfl), hstart]
    rfl
  · have h := call_strchr evaluate m v w (some back)
    rw [hend] at h
    exact h.trans (call_strchr evaluate m v w (some ahead)).symm
  · have h := call_strstr evaluate m v w (some back)
    rw [hend] at h
    exact h.trans (call_strstr evaluate m v w (some ahead)).symm
  · exact hcase Char.toUpper
  · exact hcase Char.toLower
  · have h := call_strrchr evaluate m v w (some back)
    have h' := call_strrchr evaluate m v w (some before)
    rw [hlast] at h
    rw [positionOf, Option.elim, hbefore, position_natCast, Nat.min_eq_left (Nat.sub_le _ _)] at h'
    exact h.trans h'.symm
  · have h := call_strrchr evaluate m v w (some back)
    have h' := call_strrchr evaluate m v w (some ahead)
    rw [hlast] at h
    rw [positionOf, Option.elim, hahead, position_natCast] at h'
    have hword : (m.charsOf v).length - k < 2 ^ 63 := by
      have hlt : ahead.toInt ≤ 2 ^ 63 - 1 := ahead.toInt_le
      omega
    rw [show call evaluate .strrchr [v, w, .int back] m = _ from h,
      show call evaluate .strrchr [v, w, .int ahead] m = _ from h', EStateM.Result.ok.injEq,
      and_iff_left rfl, indexValue_inj, lastIndex?_back_eq_iff hk]
    · exact fun i hi => by have hle := lastIndex?_le hi; omega
    · exact fun i hi => by have hle := lastIndex?_le hi; omega

end

/-- One back from the end of a text of five letters, and of the letter before the last. -/
theorem negative_positions_oneBack :
    (0 < 1 ∧ (-1 : Int64).toInt = -(1 : ℕ) ∧
      (4 : Int64).toInt = ((charsOf {} (.text "hello")).length - 1 : ℕ) ∧
      (3 : Int64).toInt = ((charsOf {} (.text "hello")).length - 1 - 1 : ℕ)) ∧
      call (evaluate 0) .strchr [.text "hello", .text "o", .int (-1)] {} =
        call (evaluate 0) .strchr [.text "hello", .text "o", .int 4] {} ∧
      call (evaluate 0) .strrchr [.text "hello", .text "o", .int (-1)] {} =
        call (evaluate 0) .strrchr [.text "hello", .text "o", .int 3] {} := by
  have hback : (-1 : Int64).toInt = -(1 : ℕ) := by decide
  have hahead : (4 : Int64).toInt = ((charsOf {} (.text "hello")).length - 1 : ℕ) := by
    decide +kernel
  have hbefore : (3 : Int64).toInt = ((charsOf {} (.text "hello")).length - 1 - 1 : ℕ) := by
    decide +kernel
  have h := negative_positions (evaluate 0) {} (.text "hello") (.text "o") Nat.one_pos
    hback hahead hbefore
  exact ⟨⟨Nat.one_pos, hback, hahead, hbefore⟩, h.2.1, h.2.2.2.2.2.1⟩

/-- Backwards from minus one, the last character is not found that is found from its own index. -/
theorem last_character_not_reached :
    call (evaluate 0) .strrchr [.text "hello", .text "o", .int (-1)] {} = .ok (.int (-1)) {} ∧
      call (evaluate 0) .strrchr [.text "hello", .text "o", .int 4] {} = .ok (.int 4) {} :=
  ⟨rfl, rfl⟩

end ExprEngine.Builtin
