import ExprEngine.Proofs.Pattern.Brackets
import ExprEngine.Proofs.Pattern.Indices

/-!
# Scans of globs stay in range

What searches a pattern, reads a class of it or looks for its faults by indices does so from any
index on without being stopped, and finds what the functions on lists find behind that index.

* `Indexed.findFrom_eq`: the search for a byte that no backslash escapes.
* `Indexed.classMatch_eq`: a class, whatever its bytes are.
* `Indexed.checkFrom_eq`: the validator.
-/

namespace ExprEngine.Glob.Indexed

/-! ### Reading bytes -/

section

variable {bs : List UInt8} {b needle : UInt8} {i j n : ℕ}

theorem ok_bind {α β : Type} (a : α) (f : α → Checked β) : (Except.ok a >>= f) = f a := rfl

theorem byteAt_eq (h : bs[i]? = some b) : byteAt bs i = .ok b := by
  rw [byteAt, h]

theorem drop_eq_cons (h : bs[i]? = some b) : bs.drop i = b :: bs.drop (i + 1) := by
  obtain ⟨hi, rfl⟩ := List.getElem?_eq_some_iff.mp h
  exact List.drop_eq_getElem_cons hi

theorem drop_eq_nil (h : bs[i]? = none) : bs.drop i = [] :=
  List.drop_eq_nil_of_le (List.getElem?_eq_none_iff.mp h)

theorem getLast?_take (h : bs[i]? = some b) : (bs.take (i + 1)).getLast? = some b := by
  rw [List.take_add_one, h, Option.toList_some, List.getLast?_concat]

theorem slice_eq (h : i ≤ j) (hj : j ≤ bs.length) :
    slice bs i j = .ok ((bs.drop i).take (j - i)) := by
  rw [slice, if_pos ⟨h, hj⟩, List.drop_take]

theorem slice_rest (h : i ≤ bs.length) : slice bs i bs.length = .ok (bs.drop i) := by
  rw [slice, if_pos ⟨h, Nat.le_refl _⟩, List.take_length]

theorem findUnescaped?_cons (needle b : UInt8) (cs : List UInt8) :
    findUnescaped? needle (b :: cs) =
      if b = byte '\\' then (findUnescaped? needle (cs.drop 1)).map (· + 2)
      else if b = needle then some 0
      else (findUnescaped? needle cs).map (· + 1) := by
  cases cs with
  | nil => by_cases hb : b = byte '\\' <;> simp [findUnescaped?, hb]
  | cons c cs => rfl

theorem lt_of_findUnescaped? (hn : needle ≠ byte '\\') (h : findUnescaped? needle bs = some i) :
    i < bs.length := by
  have hi := ((findUnescaped?_eq_some_iff hn).mp h).1.1
  exact (List.getElem?_eq_some_iff.mp hi).1

/-- A search from an index on is never stopped. -/
theorem findFrom_eq (needle : UInt8) (bs : List UInt8) (i : ℕ) :
    findFrom needle bs i = .ok ((findUnescaped? needle (bs.drop i)).map (i + ·)) := by
  induction hn : bs.length - i using Nat.strongRecOn generalizing i with
  | ind n ih =>
      subst hn
      rw [findFrom]
      split
      · next hi =>
        have hb := List.getElem?_eq_getElem hi
        rw [byteAt_eq hb, drop_eq_cons hb, findUnescaped?_cons, List.drop_drop]
        show (if _ then _ else if _ then _ else _) = _
        split
        · rw [ih _ (by omega) (i + 2) rfl, Option.map_map]
          congr 3
          funext k
          exact Nat.add_right_comm i 2 k
        · split
          · rfl
          · rw [ih _ (by omega) (i + 1) rfl, Option.map_map]
            congr 3
            funext k
            exact Nat.add_right_comm i 1 k
      · next hi =>
        rw [List.drop_eq_nil_of_le (Nat.le_of_not_lt hi)]
        rfl

theorem findFrom_zero (needle : UInt8) (bs : List UInt8) :
    findFrom needle bs 0 = .ok (findUnescaped? needle bs) := by
  rw [findFrom_eq, List.drop_zero]
  simp

end

/-! ### Classes -/

section

variable {cls : List UInt8} {b c : UInt8} {i : ℕ}

theorem le_meantAt (cls : List UInt8) (i : ℕ) : i ≤ meantAt cls i := by
  unfold meantAt
  split <;> omega

theorem meantAt_eq (h : cls[i]? = some b) :
    meantAt cls i = if b = byte '\\' then i + 1 else i := by
  rw [meantAt, h]
  exact if_congr (Option.some_inj) rfl rfl

theorem exists_of_dashAt (h : dashAt cls i = true) : ∃ e, cls[i + 1]? = some e := by
  rw [dashAt, Bool.and_eq_true] at h
  obtain ⟨e, he, -⟩ := (Option.any_eq_true ..).mp h.2
  exact ⟨e, he⟩

theorem classByte_cons (b : UInt8) (cs : List UInt8) :
    classByte (b :: cs) =
      if b = byte '\\' then cs.head?.map fun c => (c, cs.drop 1) else some (b, cs) := by
  cases cs <;> rfl

theorem classByte_drop (cls : List UInt8) (i : ℕ) :
    classByte (cls.drop i) =
      cls[meantAt cls i]?.map fun b => (b, cls.drop (meantAt cls i + 1)) := by
  cases hb : cls[i]? with
  | none => rw [meantAt, hb, if_neg nofun, hb, drop_eq_nil hb]; rfl
  | some b =>
      rw [drop_eq_cons hb, classByte_cons, meantAt, hb]
      by_cases he : b = byte '\\'
      · rw [if_pos he, if_pos (congrArg some he), List.head?_drop, List.drop_drop]
      · rw [if_neg he, if_neg fun h => he (Option.some.inj h), hb]
        rfl

theorem rangeEnd_drop (cls : List UInt8) (i : ℕ) :
    rangeEnd (cls.drop i) =
      if dashAt cls i then (classByte (cls.drop (i + 1))).map fun (hi, rest) => (some hi, rest)
      else some (none, cls.drop i) := by
  unfold dashAt
  cases hb : cls[i]? with
  | none => rw [drop_eq_nil hb]; rfl
  | some d =>
      cases hc : cls[i + 1]? with
      | none => rw [drop_eq_cons hb, drop_eq_nil hc]; simp [rangeEnd]
      | some e => rw [drop_eq_cons hb, drop_eq_cons hc]; simp [rangeEnd]

/-- What a class takes of its bytes, by what its items tell. -/
def taken (cls : List UInt8) (negated hit : Bool) (found : Option (Bool × List UInt8)) :
    Option ℕ :=
  found.bind fun (more, rest) =>
    if (hit || more) ≠ negated then some (cls.length - rest.length) else none

theorem taken_item (cls : List UInt8) (negated hit item : Bool)
    (found : Option (Bool × List UInt8)) :
    taken cls negated hit (found.map fun (more, rest) => (item || more, rest)) =
      taken cls negated (hit || item) found := by
  cases found with
  | none => rfl
  | some found => simp [taken, Bool.or_assoc]

theorem taken_end {negated hit : Bool} (h : i < cls.length) :
    taken cls negated hit (some (false, cls.drop (i + 1))) =
      if hit ≠ negated then some (i + 1) else none := by
  have hk : cls.length - (cls.drop (i + 1)).length = i + 1 := by
    rw [List.length_drop]
    omega
  simp only [taken, Option.bind_some, Bool.or_false, hk]

/-- The loop through a class is never stopped. -/
theorem classFrom_eq (b : UInt8) (negated : Bool) (cls : List UInt8) (i : ℕ) (hit : Bool) :
    classFrom b negated cls i hit = .ok (taken cls negated hit (classItems b (cls.drop i))) := by
  induction hn : cls.length - i using Nat.strongRecOn generalizing i hit with
  | ind n ih =>
      subst hn
      rw [classFrom]
      split
      · next hc => rw [drop_eq_nil hc, classItems]; rfl
      · next c hc =>
        have hi := (List.getElem?_eq_some_iff.mp hc).1
        have hle := le_meantAt cls i
        rw [drop_eq_cons hc]
        split
        · next he => rw [he, classItems_end, taken_end hi]
        · next he =>
          rw [classItems_cons he, ← drop_eq_cons hc, classByte_drop]
          split
          · next hl => rw [hl]; rfl
          · next lo hl =>
            rw [hl, Option.map_some, Option.bind_some]
            dsimp only
            rw [rangeEnd_drop]
            split
            · next hd =>
              obtain ⟨e, he⟩ := exists_of_dashAt hd
              have hle' := le_meantAt cls (meantAt cls i + 1 + 1)
              rw [byteAt_eq he, classByte_drop]
              dsimp only [bind, Except.bind]
              rw [← meantAt_eq he]
              split
              · next hh => rw [hh]; rfl
              · next hi hh =>
                rw [hh, ih _ (by omega) _ _ rfl, ← taken_item]
                rfl
            · rw [ih _ (by omega) _ _ rfl, ← taken_item]
              rfl

theorem classUsed?_caret (b : UInt8) (body : List UInt8) :
    classUsed? b (byte '^' :: body) =
      taken (byte '^' :: body) true false (classItems b body) := by
  cases hf : classItems b body with
  | none => simp [classUsed?, classRest?, hf, taken]
  | some found =>
      rw [classUsed?, classRest?_caret hf]
      cases h : found.1 <;> simp [taken, h]

theorem classUsed?_of_head (hc : cls.head? ≠ some (byte '^')) :
    classUsed? b cls = taken cls false false (classItems b cls) := by
  cases hf : classItems b cls with
  | none =>
      cases cls with
      | nil => simp [classUsed?, classRest?, hf, taken]
      | cons c cls =>
          have hne : c ≠ byte '^' := fun he => hc (he ▸ rfl)
          simp [classUsed?, classRest?, hf, taken, hne]
  | some found =>
      rw [classUsed?, classRest?_of_head hc hf]
      cases h : found.1 <;> simp [taken, h]

/-- Reading a class is never stopped. -/
theorem classMatch_eq (cls : List UInt8) (b : UInt8) :
    classMatch cls b = .ok (classUsed? b cls) := by
  rw [classMatch, ← List.head?_eq_getElem?]
  split
  · next h =>
    obtain ⟨body, rfl⟩ := List.head?_eq_some_iff.mp h
    rw [classFrom_eq, classUsed?_caret, List.drop_succ_cons, List.drop_zero]
  · next h => rw [classFrom_eq, classUsed?_of_head h, List.drop_zero]

end

/-! ### The validator -/

section

variable {bs : List UInt8} {b : UInt8} {i : ℕ} {inWord : Bool}

/-- The validator passes a backslash, and one byte with it if there is one. -/
theorem firstFault_escape (hb : bs[i]? = some (byte '\\')) (before : Option UInt8) :
    firstFault inWord before (bs.drop i) =
      firstFault inWord (bs.take (i + 2)).getLast? (bs.drop (i + 2)) := by
  rw [drop_eq_cons hb, firstFault_backslash, List.drop_drop]
  cases hc : bs[i + 1]? with
  | none =>
      have hlen := List.getElem?_eq_none_iff.mp hc
      rw [List.drop_eq_nil_of_le (Nat.le_succ_of_le hlen), firstFault_nil, firstFault_nil]
  | some c => rw [List.head?_drop, hc, getLast?_take hc]

/-- The validator passes a class. -/
theorem firstFault_closed {n : ℕ} (hb : bs[i]? = some (byte '[')) (before : Option UInt8)
    (hf : findUnescaped? (byte ']') (bs.drop i) = some n) :
    firstFault inWord before (bs.drop i) =
      firstFault inWord (bs.take (i + (n + 1))).getLast? (bs.drop (i + (n + 1))) := by
  have hn := lt_of_findUnescaped? (by decide) hf
  rw [List.length_drop] at hn
  have hc := List.getElem?_eq_getElem (show i + n < bs.length by omega)
  rw [drop_eq_cons hb] at hf
  rw [drop_eq_cons hb, firstFault_bracket, hf]
  dsimp only
  rw [← drop_eq_cons hb, List.getElem?_drop, hc, ← Nat.add_assoc, getLast?_take hc, List.drop_drop,
    Nat.add_right_comm]

/-- A byte next to an alternation is a fault unless it may stand there. -/
theorem refuse_byte (may : UInt8 → Bool) (fault : UInt8 → Malformed) (c : UInt8)
    (rest : Option Malformed) :
    (if may c = true then (Except.ok rest : Checked _) else pure (some (fault c))) =
      .ok ((((some c).filter (!may ·)).map fault).or rest) := by
  rw [Option.filter_some]
  cases may c <;> rfl

/-- The loop of the validator is never stopped. -/
theorem checkFrom_eq (bs : List UInt8) (inWord : Bool) (i : ℕ) :
    checkFrom bs inWord i = .ok (firstFault inWord (bs.take i).getLast? (bs.drop i)) := by
  induction hn : bs.length - i using Nat.strongRecOn generalizing inWord i with
  | ind n ih =>
      subst hn
      rw [checkFrom]
      split
      · next hi =>
        obtain ⟨b, hb⟩ : ∃ b, bs[i]? = some b := ⟨_, List.getElem?_eq_getElem hi⟩
        have next (inWord : Bool) (j : ℕ) (hj : i < j) := ih _ (by omega) inWord j rfl
        rw [byteAt_eq hb, ok_bind]
        split
        · next he =>
          rw [he] at hb
          rw [next _ _ (by omega), firstFault_escape hb]
        · next he =>
          split
          · next hbr =>
            rw [hbr] at hb
            rw [slice_rest hi.le, ok_bind, findFrom_zero, ok_bind]
            cases hf : findUnescaped? (byte ']') (bs.drop i) with
            | none =>
                rw [drop_eq_cons hb] at hf
                rw [drop_eq_cons hb, firstFault_bracket, hf]
                rfl
            | some n => rw [firstFault_closed hb _ hf, ← next _ _ (by omega)]
          · next hbr =>
            have hlast := getLast?_take hb
            have hrest (w : Bool) : checkFrom bs w (i + 1) =
                .ok (firstFault w (some b) (bs.drop (i + 1))) := by
              rw [next _ _ (by omega), hlast]
            rw [drop_eq_cons hb, firstFault_bare he hbr]
            simp only [hrest]
            split
            · next hopen =>
              split
              · rfl
              · split
                · next hz => subst hz; rfl
                · next hz =>
                  obtain ⟨k, rfl⟩ := Nat.exists_eq_succ_of_ne_zero hz
                  have hk := List.getElem?_eq_getElem (Nat.lt_of_succ_lt hi)
                  rw [Nat.succ_sub_one, byteAt_eq hk, ok_bind, getLast?_take hk]
                  exact refuse_byte ..
            · split
              · next hclose =>
                rw [List.head?_drop]
                cases hc : bs[i + 1]? with
                | none => rfl
                | some c => exact refuse_byte ..
              · split
                · next hs => rfl
                · rfl
      · next hi =>
        rw [List.drop_eq_nil_of_le (Nat.le_of_not_lt hi), firstFault_nil]
        rfl

end

end ExprEngine.Glob.Indexed
