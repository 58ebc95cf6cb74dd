import ExprEngine.Proofs.Builtin.Arguments
import ExprEngine.Proofs.Text.Offsets
import Mathlib.Order.Bounds.Basic

/-!
# Searches in texts

What `strstr`, `strchr` and `strrchr` answer, said by other functions on texts: an index where
`substr` cuts out the text that is searched for, or the index of a character of a set, and the least
or the greatest one from the position on where the search starts.  Positions count characters, and
every cut that is made at the byte offset of one falls between two characters.

* `Builtin.Tells`: the best index of a set, or minus one if it has none.
* `Builtin.StandsAt`: `substr` cuts a text out at an index.
* `Builtin.parts_join`: the two parts of a text at a position are the text.
* `Builtin.searches_agree`: the three searches and the parts.
-/

namespace ExprEngine.Builtin

open Machine

/-! ### Answers -/

/-- The best index of a set, or none if the set has none. -/
inductive Answer (best : Set ℕ → ℕ → Prop) (S : Set ℕ) : Option ℕ → Prop
  | none (h : S = ∅) : Answer best S none
  | some {k : ℕ} (h : best S k) : Answer best S (some k)

/-- The number is the best index of a set, or minus one if the set has none. -/
def Tells (best : Set ℕ → ℕ → Prop) (S : Set ℕ) (n : Int64) : Prop :=
  ∃ r, Answer best S r ∧ n.toInt = r.elim (-1) Nat.cast

variable {best : Set ℕ → ℕ → Prop} {S : Set ℕ} {r : Option ℕ} {p : Char → Bool}
  {cs needle : List Char} {start stop k : ℕ}

theorem toInt_index (h : ∀ k ∈ r, k < 2 ^ 63) :
    (r.elim (-1) Int64.ofNat).toInt = r.elim (-1) Nat.cast := by
  cases r with
  | none => rfl
  | some k => exact Int64.toInt_ofNat_of_lt (h k rfl)

/-- An answer is told if all indices of its set are words. -/
theorem Answer.tells (h : Answer best S r) (hb : ∀ k, best S k → k < 2 ^ 63) :
    Tells best S (r.elim (-1) Int64.ofNat) := by
  refine ⟨r, h, toInt_index ?_⟩
  rintro k rfl
  cases h with
  | some h => exact hb k h

/-- The indices of the characters that a predicate holds of. -/
def indices (p : Char → Bool) (cs : List Char) : Set ℕ :=
  {k | ∃ c, cs[k]? = some c ∧ p c = true}

theorem lt_length_of_mem_indices (h : k ∈ indices p cs) : k < cs.length := by
  obtain ⟨c, hc, -⟩ := h
  exact (List.getElem?_eq_some_iff.mp hc).1

/-- The indices from a start on where a text stands. -/
def places (needle cs : List Char) (start : ℕ) : Set ℕ :=
  {k | start ≤ k ∧ needle <+: cs.drop k}

theorem firstIndex?_answer :
    Answer IsLeast {k | start ≤ k ∧ k ∈ indices p cs} (firstIndex? p start cs) := by
  rw [firstIndex?]
  cases hf : (cs.drop start).findIdx? p with
  | none =>
      refine .none (Set.eq_empty_of_forall_notMem ?_)
      rintro k ⟨hk, c, hc, hp⟩
      have hmem : c ∈ cs.drop start := by
        rw [List.mem_iff_getElem?]
        exact ⟨k - start, by rw [List.getElem?_drop, Nat.add_sub_cancel' hk, hc]⟩
      rw [List.findIdx?_eq_none_iff.mp hf c hmem] at hp
      cases hp
  | some d =>
      obtain ⟨hlt, hp, hmin⟩ := List.findIdx?_eq_some_iff_getElem.mp hf
      rw [List.length_drop] at hlt
      rw [List.getElem_drop] at hp
      show Answer _ _ (some (d + start))
      refine .some ⟨⟨Nat.le_add_left _ _, cs[start + d], ?_, hp⟩, ?_⟩
      · rw [Nat.add_comm, List.getElem?_eq_getElem]
      · rintro j ⟨hj, c, hc, hpc⟩
        by_contra hlt'
        obtain ⟨e, rfl⟩ := Nat.exists_eq_add_of_le hj
        have hn := hmin e (by omega)
        rw [List.getElem_drop, (List.getElem?_eq_some_iff.mp hc).2] at hn
        exact hn hpc

theorem lastIndex?_answer :
    Answer IsGreatest {k | k ≤ stop ∧ k ∈ indices p cs} (lastIndex? p stop cs) := by
  rw [lastIndex?]
  have hlen : (cs.take (stop + 1)).length = min (stop + 1) cs.length := List.length_take
  -- the text up to the start is searched from its end, so indices are counted from there
  cases hf : (cs.take (stop + 1)).reverse.findIdx? p with
  | none =>
      refine .none (Set.eq_empty_of_forall_notMem ?_)
      rintro k ⟨hk, c, hc, hp⟩
      have hmem : c ∈ (cs.take (stop + 1)).reverse := by
        rw [List.mem_reverse, List.mem_iff_getElem?]
        exact ⟨k, by rw [List.getElem?_take_of_lt (Nat.lt_succ_of_le hk), hc]⟩
      rw [List.findIdx?_eq_none_iff.mp hf c hmem] at hp
      cases hp
  | some d =>
      obtain ⟨hlt, hp, hmin⟩ := List.findIdx?_eq_some_iff_getElem.mp hf
      rw [List.length_reverse] at hlt
      rw [List.getElem_reverse, List.getElem_take] at hp
      show Answer _ _ (some ((cs.take (stop + 1)).length - 1 - d))
      refine .some ⟨⟨by omega, _, List.getElem?_eq_getElem (by omega), hp⟩, ?_⟩
      rintro j ⟨hj, c, hc, hpc⟩
      by_contra hlt'
      obtain ⟨hjl, rfl⟩ := List.getElem?_eq_some_iff.mp hc
      have hn := hmin ((cs.take (stop + 1)).length - 1 - j) (by omega)
      rw [List.getElem_reverse, List.getElem_take] at hn
      have hback : (cs.take (stop + 1)).length - 1 - ((cs.take (stop + 1)).length - 1 - j) = j := by
        omega
      simp only [hback] at hn
      exact hn hpc

theorem firstPlace?_answer :
    Answer IsLeast (places needle cs start) (firstPlace? needle start cs) := by
  rw [firstPlace?]
  cases hf : Text.find? needle (cs.drop start) start with
  | none =>
      refine .none (Set.eq_empty_of_forall_notMem ?_)
      rintro k ⟨hk, hp⟩
      refine Text.find?_eq_none_iff.mp hf (k - start) ?_
      rwa [List.drop_drop, Nat.add_sub_cancel' hk]
  | some k =>
      obtain ⟨d, rfl, -, hn, hmin⟩ := Text.of_find? hf
      rw [List.drop_drop] at hn
      refine .some ⟨⟨Nat.le_add_right _ _, hn⟩, ?_⟩
      rintro j ⟨hj, hp⟩
      by_contra hlt
      obtain ⟨e, rfl⟩ := Nat.exists_eq_add_of_le hj
      refine hmin e (by omega) ?_
      rwa [List.drop_drop]

theorem firstPlace?_le (hs : start ≤ cs.length) (h : firstPlace? needle start cs = some k) :
    k ≤ cs.length := by
  obtain ⟨d, rfl, hd, -, -⟩ := Text.of_find? h
  rw [List.length_drop] at hd
  omega

/-! ### Parts -/

section

variable (evaluate : String → Eval Value) (m : Machine) (v w : Value)

/-- The text of `w` is what `substr` cuts out of that of `v` at an index, if it cuts out as many
characters as `strlen` says that `w` has. -/
def StandsAt (k : ℕ) : Prop :=
  ∃ j : Int64, j.toInt = k ∧
    (do call evaluate .substr [v, .int j, ← call evaluate .strlen [w]]) m =
      .ok (.text (m.session.toText w)) m

theorem textValue_eq_iff {s : List Char} :
    textValue s = .text (m.session.toText w) ↔ s = m.charsOf w := by
  refine ⟨fun h => ?_, fun h => by rw [h, textValue_charsOf]⟩
  injection h with h
  injection h with h
  rw [charsOf, ← h, String.toList_ofList]

/-- A part of as many characters as a text has is this text exactly if it stands there. -/
theorem part_eq_iff {ws : List Char} {a : ℕ} :
    Text.slice cs (min a cs.length) (min ws.length (cs.length - min a cs.length)) = ws ↔
      ws <+: cs.drop a := by
  have hd : cs.drop (min a cs.length) = cs.drop a := by
    rcases Nat.le_total a cs.length with h | h
    · rw [Nat.min_eq_left h]
    · rw [Nat.min_eq_right h, List.drop_length, List.drop_eq_nil_of_le h]
  rw [Text.slice, hd, ← List.length_drop, hd, ← List.take_eq_take_min, List.prefix_iff_eq_take,
    eq_comm]

theorem standsAt_iff (hw : Text.Addressable (m.charsOf w)) {k : ℕ} :
    StandsAt evaluate m v w k ↔ k < 2 ^ 63 ∧ m.charsOf w <+: (m.charsOf v).drop k := by
  have hlen : (Int64.ofNat (m.charsOf w).length).toInt = (m.charsOf w).length :=
    Int64.toInt_ofNat_of_lt hw.length_lt
  have hcall (j : Int64) (hj : j.toInt = k) :
      (do call evaluate .substr [v, .int j, ← call evaluate .strlen [w]]) m =
        .ok (textValue (Text.slice (m.charsOf v) (min k (m.charsOf v).length)
          (min (m.charsOf w).length ((m.charsOf v).length - min k (m.charsOf v).length)))) m := by
    rw [bind_of_ok (call_strlen evaluate m w)]
    have h := call_substr evaluate m v (some (Int64.ofNat (m.charsOf w).length)) j
    simp only [positionOf, Option.elim, hj, hlen, position_natCast] at h
    exact h
  constructor
  · rintro ⟨j, hj, h⟩
    have hlt : j.toInt ≤ 2 ^ 63 - 1 := j.toInt_le
    rw [hcall j hj] at h
    injection h with h
    exact ⟨by omega, part_eq_iff.mp ((textValue_eq_iff m w).mp h)⟩
  · rintro ⟨hk, h⟩
    have hj : (Int64.ofNat k).toInt = k := Int64.toInt_ofNat_of_lt hk
    refine ⟨_, hj, ?_⟩
    rw [hcall _ hj, (textValue_eq_iff m w).mpr (part_eq_iff.mpr h)]

theorem strstr_answer (hv : Text.Addressable (m.charsOf v)) (hw : Text.Addressable (m.charsOf w))
    {a : ℕ} (ha : a ≤ (m.charsOf v).length) :
    Answer IsLeast {k | a ≤ k ∧ StandsAt evaluate m v w k}
      (firstPlace? (m.charsOf w) a (m.charsOf v)) := by
  have hplace {k : ℕ} (hk : a ≤ k ∧ StandsAt evaluate m v w k) :
      k ∈ places (m.charsOf w) (m.charsOf v) a :=
    ⟨hk.1, ((standsAt_iff evaluate m v w hw).mp hk.2).2⟩
  have h : Answer IsLeast (places (m.charsOf w) (m.charsOf v) a)
      (firstPlace? (m.charsOf w) a (m.charsOf v)) := firstPlace?_answer
  cases hf : firstPlace? (m.charsOf w) a (m.charsOf v) with
  | none =>
      rw [hf] at h
      cases h with
      | none h => exact .none (Set.subset_eq_empty (fun k hk => hplace hk) h)
  | some k =>
      have hlt : k < 2 ^ 63 := Nat.lt_of_le_of_lt (firstPlace?_le ha hf) hv.length_lt
      rw [hf] at h
      cases h with
      | some h =>
          refine .some ⟨⟨h.1.1, (standsAt_iff evaluate m v w hw).mpr ⟨hlt, h.1.2⟩⟩, ?_⟩
          exact fun j hj => h.2 (hplace hj)

/-- The two parts of a text at a position are the text. -/
theorem parts_join (n : Int64) :
    (do call evaluate .strcat [← call evaluate .substr [v, .int 0, .int n],
      ← call evaluate .substr [v, .int n]]) m = .ok (.text (m.session.toText v)) m := by
  have hjoin (s t : List Char) :
      String.join [m.session.toText (textValue s), m.session.toText (textValue t)] =
        String.ofList (s ++ t) := by
    rw [String.ofList_append]
    exact congrArg (· ++ String.ofList t) (String.empty_append)
  rw [bind_of_ok (call_front evaluate m v n), bind_of_ok (call_back evaluate m v n), call_strcat,
    List.map_cons, List.map_cons, List.map_nil, hjoin, List.take_append_drop, charsOf,
    String.ofList_toList]

/-! ### Agreement -/

/-- **Searches and parts agree, in characters.**  Whatever the start, `strstr` tells the least index
from the start's position on where `substr` cuts the text out that is searched for; `strchr` tells
the least and `strrchr` the greatest index from there on, forwards or backwards, of a character of
the set; and the parts of a text at a position make up the text.  Searching and cutting by the byte
offsets of positions has the same results. -/
theorem searches_agree (hv : Text.Addressable (m.charsOf v))
    (hw : Text.Addressable (m.charsOf w)) :
    (∀ start : Option Int64, ∃ n,
      call evaluate .strstr (v :: w :: optional start) m = .ok (.int n) m ∧
        Tells IsLeast {k | positionOf 0 (m.charsOf v).length start ≤ k ∧
          StandsAt evaluate m v w k} n ∧
        (Text.search? (m.charsOf w) (m.charsOf v)
          (positionOf 0 (m.charsOf v).length start)).map indexValue = some (.int n)) ∧
      (∀ start : Option Int64, ∃ n,
        call evaluate .strchr (v :: w :: optional start) m = .ok (.int n) m ∧
          Tells IsLeast {k | positionOf 0 (m.charsOf v).length start ≤ k ∧
            k ∈ indices (m.charsOf w).contains (m.charsOf v)} n) ∧
      (∀ start : Option Int64, ∃ n,
        call evaluate .strrchr (v :: w :: optional start) m = .ok (.int n) m ∧
          Tells IsGreatest {k | k ≤ positionOf ((m.charsOf v).length - 1)
            ((m.charsOf v).length - 1) start ∧
              k ∈ indices (m.charsOf w).contains (m.charsOf v)} n) ∧
      (∀ n : Int64, (do call evaluate .strcat [← call evaluate .substr [v, .int 0, .int n],
        ← call evaluate .substr [v, .int n]]) m = .ok (.text (m.session.toText v)) m) ∧
      ∀ (n : Int64) (count : Option Int64),
        ((Text.cut? (m.charsOf v) (position n.toInt (m.charsOf v).length)
          (positionOf ((m.charsOf v).length - position n.toInt (m.charsOf v).length)
            ((m.charsOf v).length - position n.toInt (m.charsOf v).length) count)).map
              fun cs => EStateM.Result.ok (textValue cs) m) =
          some (call evaluate .substr (v :: .int n :: optional count) m) := by
  have hword {start : ℕ → Prop} {k : ℕ}
      (hk : k ∈ {k | start k ∧ k ∈ indices (m.charsOf w).contains (m.charsOf v)}) : k < 2 ^ 63 :=
    Nat.lt_trans (lt_length_of_mem_indices hk.2) hv.length_lt
  refine ⟨fun start => ⟨_, call_strstr evaluate m v w start, ?_, ?_⟩,
    fun start => ⟨_, call_strchr evaluate m v w start, ?_⟩,
    fun start => ⟨_, call_strrchr evaluate m v w start, ?_⟩, parts_join evaluate m v,
    fun n count => ?_⟩
  · refine (strstr_answer evaluate m v w hv hw (positionOf_le (Nat.zero_le _) start)).tells ?_
    exact fun k hk => ((standsAt_iff evaluate m v w hw).mp hk.1.2).1
  · rw [Text.search?_eq]
    rfl
  · exact firstIndex?_answer.tells fun k hk => hword hk.1
  · exact lastIndex?_answer.tells fun k hk => hword hk.1
  · rw [Text.cut?_eq, call_substr]
    rfl

end

/-- The search for a letter behind one of two bytes. -/
theorem searches_agree_behindTwoBytes :
    (Text.Addressable (charsOf {} (.text "héllo")) ∧ Text.Addressable (charsOf {} (.text "l"))) ∧
      ∃ n, call (evaluate 0) .strstr [.text "héllo", .text "l", .int 3] {} = .ok (.int n) {} ∧
        Tells IsLeast {k | 3 ≤ k ∧ StandsAt (evaluate 0) {} (.text "héllo") (.text "l") k} n ∧
        (Text.search? "l".toList "héllo".toList 3).map indexValue = some (.int n) := by
  have hv : Text.Addressable (charsOf {} (.text "héllo")) := by decide +kernel
  have hw : Text.Addressable (charsOf {} (.text "l")) := by decide +kernel
  exact ⟨⟨hv, hw⟩, (searches_agree (evaluate 0) {} _ _ hv hw).1 (some 3)⟩

end ExprEngine.Builtin
