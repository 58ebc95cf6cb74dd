import ExprEngine.Proofs.Pattern.Scans
import ExprEngine.Proofs.Pattern.Steps

/-!
# The glob matcher stays in range

What the matcher does by indices is what the matcher of lists does at the places that the indices
stand for.  Where the text has an index, and the pattern has the end of the alternative, no step
leaves them.  Each nested matcher takes one from the budget, so none is nested deeper.

* `Trial.run_eq`: the loop of the matcher, from what the nested matcher answers.
* `Trial.matchFrom_answers`: the matcher, by induction on what is left of its budget.
* `Indexed.never_stopped`: on all inputs the matcher and the validator give what they should.
-/

namespace ExprEngine.Glob.Indexed

/-! ### Places -/

theorem wordEnd_of_endsWord {t : Place} (h : t.endsWord = true) :
    Place.wordEnd t.before t.rest = t := by
  obtain ⟨before, rest⟩ := t
  cases rest with
  | nil => rfl
  | cons b rest => exact if_pos (eq_of_beq h)

theorem withinWord_of_endsWord {t : Place} (h : t.endsWord = true) :
    Place.withinWord t.before t.rest = [t] := by
  obtain ⟨before, rest⟩ := t
  cases rest with
  | nil => rfl
  | cons b rest => exact if_pos (eq_of_beq h)

namespace Trial

variable {g : Trial} {p s depth : ℕ} {wordEnd : Option ℕ} {test : ℕ → Checked Bool}
  {f : Place → Bool}

/-- The place of the text that an index stands for. -/
def place (g : Trial) (s : ℕ) : Place :=
  ⟨(g.text.take s).getLast?, g.text.drop s⟩

theorem place_of_getElem? {c : UInt8} (h : g.text[s]? = some c) :
    g.place s = ⟨(g.text.take s).getLast?, c :: (g.place (s + 1)).rest⟩ ∧
      (g.place (s + 1)).before = some c := by
  refine ⟨?_, getLast?_take h⟩
  rw [place, drop_eq_cons h]
  rfl

theorem place_end (h : g.text[s]? = none) : (g.place s).rest = [] :=
  drop_eq_nil h

theorem startsWord_eq (hs : s ≤ g.text.length) :
    g.startsWord s = .ok (g.place s).startsWord := by
  rw [startsWord]
  split
  · next hz => rw [hz]; rfl
  · next hz =>
    obtain ⟨k, rfl⟩ := Nat.exists_eq_succ_of_ne_zero hz
    have hk := List.getElem?_eq_getElem (Nat.lt_of_succ_le hs)
    rw [Nat.succ_sub_one, byteAt_eq hk, Place.startsWord, (place_of_getElem? hk).2]
    rfl

theorem endsWord_eq (g : Trial) (s : ℕ) : g.endsWord s = (g.place s).endsWord := by
  rw [endsWord, Place.endsWord]
  cases h : g.text[s]? with
  | none => rw [place_end h]
  | some c => rw [(place_of_getElem? h).1]

theorem take_eq {ok : UInt8 → Bool} {next : Checked Bool} {f : Place → Bool}
    (hnext : s < g.text.length → next = .ok (f (g.place (s + 1)))) :
    g.take s ok next = .ok ((g.place s).eats ok f) := by
  rw [take, Place.eats]
  cases h : g.text[s]? with
  | none => rw [place_end h]
  | some c =>
      obtain ⟨hp, hb⟩ := place_of_getElem? h
      rw [hp]
      dsimp only
      rw [hnext (List.getElem?_eq_some_iff.mp h).1, ← hb]
      cases ok c <;> rfl

theorem wordEndFrom_eq (hs : s ≤ g.text.length) :
    g.wordEndFrom s ≤ g.text.length ∧
      g.place (g.wordEndFrom s) = Place.wordEnd (g.place s).before (g.place s).rest := by
  induction hn : g.text.length - s using Nat.strongRecOn generalizing s with
  | ind n ih =>
      subst hn
      rw [wordEndFrom]
      split
      · next he => exact ⟨hs, (wordEnd_of_endsWord (endsWord_eq g s ▸ he)).symm⟩
      · next he =>
        have hlt := lt_of_endsWord he
        have h := List.getElem?_eq_getElem hlt
        obtain ⟨hp, hb⟩ := place_of_getElem? h
        rw [endsWord, h] at he
        rw [hp, Place.wordEnd, if_neg (by simpa using he), ← hb]
        exact ih _ (by omega) hlt rfl

theorem anyWithin_eq (htest : ∀ i ≤ g.text.length, test i = .ok (f (g.place i)))
    (hs : s ≤ g.text.length) :
    g.anyWithin test s = .ok ((Place.withinWord (g.place s).before (g.place s).rest).any f) := by
  induction hn : g.text.length - s using Nat.strongRecOn generalizing s with
  | ind n ih =>
      subst hn
      rw [anyWithin, htest s hs]
      split
      · next he =>
        rw [withinWord_of_endsWord (endsWord_eq g s ▸ he), List.any_cons, List.any_nil,
          Bool.or_false]
      · next he =>
        have hlt := lt_of_endsWord he
        have h := List.getElem?_eq_getElem hlt
        obtain ⟨hp, hb⟩ := place_of_getElem? h
        rw [endsWord, h] at he
        rw [ih _ (by omega) hlt rfl, hp, Place.withinWord, if_neg (by simpa using he), ← hb, ← hp,
          List.any_cons]
        cases f (g.place s) <;> rfl

/-- The tests at the indices up to the end of the text, and at the end if `n` is not zero. -/
theorem anyOnward_eq {n k : ℕ} (htest : ∀ i < g.text.length, test i = .ok (f (g.place i)))
    (hlast : anyOnward test g.text.length n = .ok (f (g.place g.text.length)))
    (hs : s + k = g.text.length) :
    anyOnward test s (k + n) =
      .ok ((Place.onward (g.place s).before (g.place s).rest).any f) := by
  induction k generalizing s with
  | zero =>
      obtain rfl : s = g.text.length := hs
      have hr : (g.place g.text.length).rest = [] := List.drop_length
      rw [Nat.zero_add, hlast, hr, Place.onward, List.any_cons, List.any_nil, Bool.or_false, ← hr]
  | succ k ih =>
      have hlt : s < g.text.length := by omega
      obtain ⟨hp, hb⟩ := place_of_getElem? (List.getElem?_eq_getElem hlt)
      rw [Nat.add_right_comm, anyOnward, htest s hlt, ih (by omega), hp, Place.onward, ← hb, ← hp,
        List.any_cons]
      cases f (g.place s) <;> rfl

theorem anyOnward_one {a : Bool} (h : test s = .ok a) : anyOnward test s 1 = .ok a := by
  rw [anyOnward, h]
  cases a <;> rfl

/-! ### Stars -/

theorem patEnd_none (g : Trial) : g.patEnd none = g.pat.length := rfl

theorem patEnd_some (g : Trial) (e : ℕ) : g.patEnd (some e) = e := rfl

/-- What follows a row of stars, by indices. -/
theorem skipRun_eq (inWord : Bool) {stop : ℕ} (hp : stop ≤ g.pat.length)
    (hs : s ≤ g.text.length) :
    ∃ r, g.skipRun inWord stop p s = .ok r ∧
      skipStars inWord (stop - p) (g.pat.drop p) (g.place s) =
        r.map (fun (q, u) => (stop - q, g.pat.drop q, g.place u)) ∧
      ∀ q u, r = some (q, u) → u ≤ g.text.length := by
  induction hn : stop - p using Nat.strongRecOn generalizing p s with
  | ind n ih =>
      subst hn
      have here : ∃ r, (Except.ok (some (p, s)) : Checked (Option (ℕ × ℕ))) = .ok r ∧
          some (stop - p, g.pat.drop p, g.place s) =
            r.map (fun (q, u) => (stop - q, g.pat.drop q, g.place u)) ∧
          ∀ q u, r = some (q, u) → u ≤ g.text.length := by
        refine ⟨_, rfl, rfl, ?_⟩
        rintro q u ⟨⟩
        exact hs
      rw [skipRun]
      split
      · next hlt =>
        have hb := List.getElem?_eq_getElem (Nat.lt_of_lt_of_le hlt hp)
        have hroom : stop - p = stop - (p + 1) + 1 := by omega
        rw [byteAt_eq hb]
        dsimp only [bind, Except.bind]
        split
        · next hstar =>
          rw [drop_eq_cons hb, hstar, hroom, skipStars_star]
          exact ih _ (by omega) hs rfl
        · next hstar =>
          split
          · next hany =>
            rw [drop_eq_cons hb, hany, hroom, skipStars_any]
            cases hc : g.text[s]? with
            | none =>
                rw [place_end hc]
                exact ⟨none, rfl, rfl, nofun⟩
            | some c =>
                obtain ⟨hpl, hbe⟩ := place_of_getElem? hc
                rw [hpl]
                dsimp only
                split
                · exact ⟨none, rfl, rfl, nofun⟩
                · rw [← hbe]
                  exact ih _ (by omega) (List.getElem?_eq_some_iff.mp hc).1 rfl
          · next hany =>
            rw [skipStars_of_head]
            · exact here
            · rw [drop_eq_cons hb]
              exact fun h => hstar (Option.some.inj h)
            · rw [drop_eq_cons hb]
              exact fun h => hany (Option.some.inj h)
      · next hle =>
        have hz : stop - p = 0 := by omega
        rw [hz] at here ⊢
        rw [skipStars_zero]
        exact here

/-- A matcher answers what the matcher of lists answers with this budget. -/
def Answers (g : Trial) (nested : Nested) (depth : ℕ) : Prop :=
  ∀ (wordEnd : Option ℕ) (p s : ℕ), (∀ e ∈ wordEnd, e ≤ g.pat.length) → s ≤ g.text.length →
    nested wordEnd p s =
      .ok (matchesAt depth (wordEnd.map (· - p)) (g.pat.drop p) (g.place s))

variable {nested : Nested}

theorem mayStart_brace (more : List UInt8) (t : Place) :
    mayStart (byte '{' :: more) t = t.startsWord := by
  obtain ⟨before, rest⟩ := t
  cases rest with
  | nil => exact Bool.true_and _
  | cons c text => rfl

theorem mayStart_end {b : UInt8} (hb : b ≠ byte '{') (more : List UInt8) :
    mayStart (b :: more) (g.place g.text.length) = false := by
  have hp : g.place g.text.length = ⟨(g.text.take g.text.length).getLast?, []⟩ := by
    rw [place, List.drop_length]
  rw [hp]
  exact Bool.and_eq_false_imp.mpr fun h => absurd (eq_of_beq h) hb

theorem mayStart_byte {b c : UInt8} (hb : b ≠ byte '{') (h : g.text[s]? = some c)
    (more : List UInt8) :
    mayStart (b :: more) (g.place s) =
      (if b = byte '[' then true
        else Ascii.sameLetter c (if b = byte '\\' then more.headD b else b)) := by
  rw [(place_of_getElem? h).1, apply_ite (Ascii.sameLetter c)]
  exact if_neg hb

theorem ite_ok (c a : Bool) :
    (if c = true then (Except.ok a : Checked Bool) else pure false) = .ok (c && a) := by
  cases c <;> rfl

/-- What follows a row of stars is tried at the indices of the text from one on. -/
theorem tryOnward_eq (hn : g.Answers nested depth) {b : UInt8} (hb : g.pat[p]? = some b)
    (hs : s ≤ g.text.length) :
    g.tryOnward nested b p s =
      .ok ((Place.onward (g.place s).before (g.place s).rest).any fun v =>
        mayStart (g.pat.drop p) v && matchesAt depth none (g.pat.drop p) v) := by
  have hk : s + (g.text.length - s) = g.text.length := by omega
  have hnest (i : ℕ) (hi : i ≤ g.text.length) : nested none p i =
      .ok (matchesAt depth none (g.pat.drop p) (g.place i)) := hn none p i nofun hi
  rw [tryOnward]
  split
  · next he =>
    have htest (i : ℕ) (hi : i ≤ g.text.length) :
        (do if ← g.startsWord i then nested none p i else return false) =
          (.ok (mayStart (g.pat.drop p) (g.place i) &&
            matchesAt depth none (g.pat.drop p) (g.place i)) : Checked Bool) := by
      rw [startsWord_eq hi, hnest i hi, drop_eq_cons hb, he, mayStart_brace]
      exact ite_ok ..
    rw [show g.text.length + 1 - s = g.text.length - s + 1 by omega]
    exact anyOnward_eq (fun i hi => htest i hi.le) (anyOnward_one (htest _ le_rfl)) hk
  · next he =>
    -- only a brace may start at the end of the text
    have hend : (.ok false : Checked Bool) =
        .ok (mayStart (g.pat.drop p) (g.place g.text.length) &&
          matchesAt depth none (g.pat.drop p) (g.place g.text.length)) := by
      rw [drop_eq_cons hb, mayStart_end he, Bool.false_and]
    split
    · next hc =>
      refine anyOnward_eq (n := 0) (fun i hi => ?_) hend hk
      rw [hnest i hi.le, drop_eq_cons hb, mayStart_byte he (List.getElem?_eq_getElem hi),
        if_pos hc, Bool.true_and]
    · next hc =>
      refine anyOnward_eq (n := 0) (fun i hi => ?_) hend hk
      have hi' := List.getElem?_eq_getElem hi
      rw [byteAt_eq hi', hnest i hi.le, drop_eq_cons hb, mayStart_byte he hi', if_neg hc,
        List.headD_eq_head?_getD, List.head?_drop]
      exact ite_ok ..

/-- A row of stars is never stopped outside an alternation. -/
theorem star_eq (hn : g.Answers nested depth) (hb : g.pat[p]? = some (byte '*'))
    (hs : s ≤ g.text.length) :
    g.star nested none p s = .ok (matchesAt (depth + 1) none (g.pat.drop p) (g.place s)) := by
  have hp := (List.getElem?_eq_some_iff.mp hb).1
  have hroom : g.pat.length - p = (g.pat.drop (p + 1)).length + 1 := by
    rw [List.length_drop]
    omega
  obtain ⟨r, hr, hskip, hu⟩ := skipRun_eq (p := p) false (le_refl g.pat.length) hs
  rw [hroom, drop_eq_cons hb, skipStars_star] at hskip
  rw [star, Option.isSome_none, patEnd_none, hr, drop_eq_cons hb]
  dsimp only [bind, Except.bind]
  cases r with
  | none =>
      refine congrArg Except.ok (Bool.eq_false_iff.mpr fun h => ?_).symm
      obtain ⟨_, _, _, hk, -⟩ := (matchesAt_star _).mp h
      cases hskip.symm.trans hk
  | some r =>
      obtain ⟨q, u⟩ := r
      dsimp only
      rw [if_neg Bool.false_ne_true]
      cases hq : g.pat[q]? with
      | none =>
          refine congrArg Except.ok (Eq.symm ?_)
          exact (matchesAt_star _).mpr ⟨_, _, _, hskip, .inl (drop_eq_nil hq)⟩
      | some b =>
          dsimp only
          rw [tryOnward_eq hn hq (hu q u rfl), Except.ok.injEq, Bool.eq_iff_iff, matchesAt_star,
            hskip]
          simp [drop_eq_cons hq]

/-- A row of stars is never stopped inside an alternation. -/
theorem star_inWord_eq (hn : g.Answers nested depth) {e : ℕ} (he : e ≤ g.pat.length) (hp : p < e)
    (hb : g.pat[p]? = some (byte '*')) (hs : s ≤ g.text.length) :
    g.star nested (some e) p s =
      .ok (matchesAt (depth + 1) (some (e - p)) (g.pat.drop p) (g.place s)) := by
  have hroom : e - p = e - (p + 1) + 1 := by omega
  obtain ⟨r, hr, hskip, hu⟩ := skipRun_eq (p := p) true he hs
  rw [hroom, drop_eq_cons hb, skipStars_star] at hskip
  rw [star, Option.isSome_some, patEnd_some, hr, drop_eq_cons hb, hroom]
  dsimp only [bind, Except.bind]
  cases r with
  | none =>
      refine congrArg Except.ok (Bool.eq_false_iff.mpr fun h => ?_).symm
      obtain ⟨_, _, _, hk, -⟩ := (matchesAt_star_inWord _ _).mp h
      cases hskip.symm.trans hk
  | some r =>
      obtain ⟨q, u⟩ := r
      have htest (i : ℕ) (hi : i ≤ g.text.length) := hn (some e) q i (by simpa using he) hi
      dsimp only
      rw [if_pos rfl, anyWithin_eq htest (hu q u rfl), Except.ok.injEq, Bool.eq_iff_iff,
        matchesAt_star_inWord, hskip]
      simp

/-! ### Alternatives -/

/-- The loop through the alternatives is never stopped. -/
theorem alternatives_eq (hn : g.Answers nested depth) {close alt : ℕ}
    (hc : close ≤ g.pat.length) (ha : alt ≤ close) (hs : s ≤ g.text.length) :
    g.alternatives nested s close alt =
      .ok (anyAlternative depth (close - alt) (g.pat.drop alt) (g.place s)) := by
  induction hk : close - alt using Nat.strongRecOn generalizing alt with
  | ind k ih =>
      subst hk
      rw [alternatives, slice_eq ha hc]
      dsimp only [bind, Except.bind]
      rw [findFrom_zero]
      dsimp only
      cases hf : findUnescaped? (byte '|') ((g.pat.drop alt).take (close - alt)) with
      | none =>
          rw [Option.elim_none, hn (some close) alt s (by simpa using hc) hs,
            anyAlternative_none hf, if_pos le_rfl, Option.map_some]
          dsimp only
          cases matchesAt depth (some (close - alt)) (g.pat.drop alt) (g.place s) <;> rfl
      | some i =>
          have hlt := lt_of_findUnescaped? (by decide) hf
          rw [List.length_take, List.length_drop] at hlt
          have hbar : alt + i ≤ g.pat.length := by omega
          have hroom : close - alt - (i + 1) = close - (alt + i + 1) := by omega
          rw [Option.elim_some, hn (some (alt + i)) alt s (by simpa using hbar) hs,
            anyAlternative_some hf, if_neg (by omega), ih _ (by omega) (by omega) rfl,
            List.drop_drop, hroom, Option.map_some, Nat.add_sub_cancel_left]
          dsimp only
          cases matchesAt depth _ _ _ <;> rfl

/-! ### The loop -/

theorem getElem?_of_lt_patEnd (hw : ∀ e ∈ wordEnd, e ≤ g.pat.length) (h : p < g.patEnd wordEnd) :
    ∃ b, g.pat[p]? = some b := by
  have hlt : p < g.pat.length := by
    cases wordEnd with
    | none => exact h
    | some e => exact Nat.lt_of_lt_of_le h (hw e rfl)
  exact ⟨_, List.getElem?_eq_getElem hlt⟩

theorem room_ne_zero (h : p < g.patEnd wordEnd) : wordEnd.map (· - p) ≠ some 0 := by
  cases wordEnd with
  | none => nofun
  | some e =>
      have hlt : p < e := h
      rw [Option.map_some, Ne, Option.some.injEq]
      omega

theorem map_room (wordEnd : Option ℕ) (p k : ℕ) :
    (wordEnd.map (· - p)).map (· - k) = wordEnd.map (· - (p + k)) := by
  rw [Option.map_map]
  congr 1
  funext e
  exact Nat.sub_sub e p k

theorem isEmpty_place (g : Trial) (s : ℕ) :
    (g.place s).rest.isEmpty = decide (g.text.length ≤ s) := by
  rw [Bool.eq_iff_iff, List.isEmpty_iff, decide_eq_true_iff]
  exact List.drop_eq_nil_iff

theorem matchesAt_end (h : g.patEnd wordEnd ≤ p) (n : ℕ) :
    matchesAt (n + 1) (wordEnd.map (· - p)) (g.pat.drop p) (g.place s) =
      if wordEnd.isSome then g.endsWord s else decide (g.text.length ≤ s) := by
  cases wordEnd with
  | none =>
      rw [List.drop_eq_nil_of_le h, Option.map_none, matchesAt_nil, ← isEmpty_place]
      rfl
  | some e =>
      have hz : e - p = 0 := Nat.sub_eq_zero_of_le h
      rw [Option.map_some, hz, matchesAt_ended, endsWord_eq]
      rfl

theorem matchesAt_literal {b : UInt8} {t : Place} (hroom : wordEnd.map (· - p) ≠ some 0)
    (he : b ≠ byte '\\') (hq : b ≠ byte '?') (hstar : b ≠ byte '*') (hbr : b ≠ byte '[')
    (hbrace : ¬(b = byte '{' ∧ wordEnd.isNone = true)) (pat : List UInt8) :
    matchesAt (depth + 1) (wordEnd.map (· - p)) (b :: pat) t =
      t.eats (Ascii.sameLetter · b)
        (matchesAt (depth + 1) (wordEnd.map (· - (p + 1))) pat) := by
  have plain : (Glyph.bare b he).isPlain = true := by
    simp [Glyph.isPlain, Glyph.isBare, hq, hstar, hbr]
  have hopen (h : (Glyph.bare b he).isBare (byte '{') = true) :
      (wordEnd.map (· - p)).isSome = true := by
    rw [Option.isSome_map, ← Option.not_isNone, Bool.not_eq_true', Bool.eq_false_iff]
    exact fun hnone => hbrace ⟨eq_of_beq h, hnone⟩
  rw [← map_room]
  exact matchesAt_glyph hroom plain hopen pat

/-- A class takes a byte of the text, or the match ends here. -/
theorem classStep_eq (depth s : ℕ) (hb : g.pat[p]? = some (byte '['))
    (hroom : wordEnd.map (· - p) ≠ some 0) :
    ∃ r, g.classStep wordEnd p s = .ok r ∧ (∀ used ∈ r, s < g.text.length) ∧
      matchesAt (depth + 1) (wordEnd.map (· - p)) (g.pat.drop p) (g.place s) =
        r.elim false fun used => matchesAt (depth + 1) (wordEnd.map (· - (p + 1 + used)))
          (g.pat.drop (p + 1 + used)) (g.place (s + 1)) := by
  have hp := (List.getElem?_eq_some_iff.mp hb).1
  rw [classStep, slice_rest hp, drop_eq_cons hb]
  cases hc : g.text[s]? with
  | none =>
      refine ⟨none, rfl, nofun, Bool.eq_false_iff.mpr fun h => ?_⟩
      obtain ⟨c, text, used, ht, -⟩ := (matchesAt_bracket hroom _).mp h
      cases (place_end hc).symm.trans ht
  | some c =>
      obtain ⟨hpl, hbe⟩ := place_of_getElem? hc
      have hs := (List.getElem?_eq_some_iff.mp hc).1
      cases hsp : wordEnd.isSome && c == byte ' ' with
      | true =>
          refine ⟨none, if_pos hsp, nofun, Bool.eq_false_iff.mpr fun h => ?_⟩
          obtain ⟨c', text, used, ht, hsp', -⟩ := (matchesAt_bracket hroom _).mp h
          rw [hpl] at ht
          cases ht
          rw [Option.isSome_map, hsp] at hsp'
          cases hsp'
      | false =>
          refine ⟨classUsed? c (g.pat.drop (p + 1)), ?_, fun _ _ => hs, ?_⟩
          · rw [← classMatch_eq]
            exact if_neg (Bool.eq_false_iff.mp hsp)
          · have hnext (used : ℕ) : matchesAt (depth + 1) ((wordEnd.map (· - p)).map (· - (used + 1)))
                ((g.pat.drop (p + 1)).drop used) ⟨some c, (g.place (s + 1)).rest⟩ =
                matchesAt (depth + 1) (wordEnd.map (· - (p + 1 + used)))
                  (g.pat.drop (p + 1 + used)) (g.place (s + 1)) := by
              rw [map_room, List.drop_drop, ← hbe, Nat.add_comm used 1, ← Nat.add_assoc]
            rw [Bool.eq_iff_iff, matchesAt_bracket hroom, hpl, Option.isSome_map]
            cases hu : classUsed? c (g.pat.drop (p + 1)) with
            | none => simp [hu]
            | some used =>
                rw [Option.elim_some, ← hnext]
                constructor
                · rintro ⟨_, _, _, ⟨⟩, -, hu', hm⟩
                  rw [hu] at hu'
                  cases hu'
                  exact hm
                · exact fun hm => ⟨c, _, used, rfl, hsp, hu, hm⟩

/-- An alternation takes a word of the text, or the match ends here. -/
theorem wordStep_eq (hn : g.Answers nested depth) (hb : g.pat[p]? = some (byte '{'))
    (hs : s ≤ g.text.length) :
    ∃ r, g.wordStep nested p s = .ok r ∧
      matchesAt (depth + 1) none (g.pat.drop p) (g.place s) =
        r.elim false fun i => matchesAt (depth + 1) none (g.pat.drop (p + i + 1))
          (g.place (g.wordEndFrom s)) := by
  have hp := (List.getElem?_eq_some_iff.mp hb).1
  rw [wordStep, slice_rest hp.le, startsWord_eq hs, (wordEndFrom_eq hs).2, drop_eq_cons hb]
  cases hst : (g.place s).startsWord with
  | false =>
      refine ⟨none, rfl, Bool.eq_false_iff.mpr fun h => ?_⟩
      cases (startsWord_of_matchesAt h).symm.trans hst
  | true =>
      rw [ok_bind, if_pos rfl, ok_bind, findFrom_zero, findUnescaped?_opening, ok_bind]
      cases hf : findUnescaped? (byte '}') (g.pat.drop (p + 1)) with
      | none => exact ⟨none, rfl, matchesAt_unclosed hf⟩
      | some i =>
          have hi := lt_of_findUnescaped? (by decide) hf
          rw [List.length_drop] at hi
          have hroom : p + (i + 1) - (p + 1) = i := by omega
          have hrest : p + (i + 1) + 1 = p + 1 + (i + 1) := by omega
          have hm := matchesAt_alternation (n := depth) (t := g.place s) hf
          rw [hst, List.drop_drop] at hm
          rw [Option.map_some]
          dsimp only
          rw [alternatives_eq hn (by omega) (by omega) hs, hroom, ok_bind]
          cases ha : anyAlternative depth i (g.pat.drop (p + 1)) (g.place s) with
          | false =>
              rw [ha] at hm
              exact ⟨none, rfl, Bool.eq_false_iff.mpr fun h => nomatch (hm.mp h).2.1⟩
          | true =>
              refine ⟨some (i + 1), rfl, ?_⟩
              rw [Option.elim_some, hrest, Bool.eq_iff_iff, hm, ha]
              simp

/-- The loop of the matcher is never stopped. -/
theorem run_eq (hn : g.Answers nested depth) (hw : ∀ e ∈ wordEnd, e ≤ g.pat.length)
    (hs : s ≤ g.text.length) :
    g.run nested wordEnd p s =
      .ok (matchesAt (depth + 1) (wordEnd.map (· - p)) (g.pat.drop p) (g.place s)) := by
  induction hk : g.patEnd wordEnd - p using Nat.strongRecOn generalizing p s with
  | ind k ih =>
      subst hk
      have next (q u : ℕ) (hq : g.patEnd wordEnd - q < g.patEnd wordEnd - p)
          (hu : u ≤ g.text.length) := ih _ hq (p := q) (s := u) hu rfl
      rw [run, if_neg (Nat.not_lt.mpr hs)]
      split
      · next hend => exact congrArg Except.ok (matchesAt_end hend depth).symm
      · next hend =>
        have hlt := Nat.lt_of_not_le hend
        have hroom := room_ne_zero hlt
        obtain ⟨b, hb⟩ := getElem?_of_lt_patEnd hw hlt
        rw [byteAt_eq hb]
        dsimp only [bind, Except.bind]
        split
        · next he =>
          rw [drop_eq_cons hb, he]
          cases hl : g.pat[p + 1]? with
          | none =>
              rw [drop_eq_nil hl, matchesAt_dangling hroom, isEmpty_place]
              rfl
          | some lit =>
              rw [drop_eq_cons hl, matchesAt_escaped hroom, map_room]
              exact take_eq fun hs => next _ _ (by omega) hs
        · next he =>
          split
          · next hq =>
            rw [drop_eq_cons hb, hq, matchesAt_any hroom, map_room, Option.isSome_map]
            exact take_eq fun hs => next _ _ (by omega) hs
          · next hq =>
            split
            · next hstar =>
              rw [hstar] at hb
              cases wordEnd with
              | none => exact star_eq hn hb hs
              | some e => exact star_inWord_eq hn (hw e rfl) hlt hb hs
            · next hstar =>
              split
              · next hbr =>
                rw [hbr] at hb
                obtain ⟨r, hr, hlt', hm⟩ := classStep_eq depth s hb hroom
                rw [hr, hm]
                cases r with
                | none => rfl
                | some used => exact next _ _ (by omega) (hlt' used rfl)
              · next hbr =>
                split
                · next hbrace =>
                  obtain ⟨hbrace, hnone⟩ := hbrace
                  obtain rfl := Option.isNone_iff_eq_none.mp hnone
                  rw [hbrace] at hb
                  obtain ⟨r, hr, hm⟩ := wordStep_eq hn hb hs
                  rw [hr]
                  refine Eq.trans ?_ (congrArg Except.ok hm).symm
                  cases r with
                  | none => rfl
                  | some i => exact next _ _ (by omega) (wordEndFrom_eq hs).1
                · next hbrace =>
                  rw [drop_eq_cons hb, matchesAt_literal hroom he hq hstar hbr hbrace]
                  exact take_eq fun hs => next _ _ (by omega) hs

/-- A matcher is never stopped that is called at places of the pattern and of the text and has the
rest of the budget left. -/
theorem matchFrom_answers (g : Trial) {level : ℕ} (hl : level + depth ≤ budget) :
    g.Answers (g.matchFrom depth level) depth := by
  induction depth generalizing level with
  | zero =>
      intro wordEnd p s hw hs
      rw [matchFrom, if_neg (by omega), matchesAt_zero]
  | succ depth ih =>
      intro wordEnd p s hw hs
      rw [matchFrom, if_neg (by omega)]
      exact run_eq (ih (by omega)) hw hs

end Trial

/-- The matcher and the validator answer on all inputs, and no run of them is stopped. -/
theorem never_stopped (pattern text : List UInt8) :
    isMatch pattern text = .ok (Glob.isMatch pattern text) ∧
      check pattern = .ok (Glob.check pattern) := by
  refine ⟨?_, checkFrom_eq pattern false 0⟩
  exact Trial.matchFrom_answers ⟨pattern, text⟩ (le_refl budget) none 0 0 nofun (Nat.zero_le _)

end ExprEngine.Glob.Indexed
