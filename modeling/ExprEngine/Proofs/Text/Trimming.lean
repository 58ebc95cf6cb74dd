import ExprEngine.Text.Ascii
import ExprEngine.Text.Blank
import Mathlib.Data.List.DropRight

/-!
# Trimming and splitting

A text is white space, what trimming leaves of it, and white space; and what trimming leaves is
found again in whatever white space it is put (`Tight`).

* `Text.exists_pad`: what trimming takes away is white space.
* `Text.trim_pad`: and it takes all of it away.
* `Text.splitAtFirst_append`: a split where a character is the first of its kind.
-/

namespace ExprEngine.Text

variable {p : Char → Bool} {a b cs l x r : List Char} {c : Char}

/-! ### Splitting -/

theorem splitAtFirst_append (h : ∀ d ∈ a, p d = false) (hc : p c = true) (b : List Char) :
    splitAtFirst p (a ++ c :: b) = some (a, b) := by
  induction a with
  | nil => simp only [List.nil_append, splitAtFirst, if_pos hc]
  | cons d a ih =>
      have hd := h d List.mem_cons_self
      have ha := ih fun e he => h e (List.mem_cons_of_mem d he)
      rw [List.cons_append, splitAtFirst, hd, ha]
      rfl

theorem splitAtFirst_eq_none (h : ∀ d ∈ a, p d = false) : splitAtFirst p a = none := by
  induction a with
  | nil => rfl
  | cons d a ih =>
      have hd := h d List.mem_cons_self
      have ha := ih fun e he => h e (List.mem_cons_of_mem d he)
      rw [splitAtFirst, hd, ha]
      rfl

/-- What splits a text is in it, and nothing like it stands before. -/
theorem exists_split_or (p : Char → Bool) (cs : List Char) :
    (∀ d ∈ cs, p d = false) ∨
      ∃ a c b, cs = a ++ c :: b ∧ p c = true ∧ ∀ d ∈ a, p d = false := by
  induction cs with
  | nil => exact .inl fun d hd => absurd hd List.not_mem_nil
  | cons d cs ih =>
      cases hd : p d with
      | true => exact .inr ⟨[], d, cs, rfl, hd, fun e he => absurd he List.not_mem_nil⟩
      | false =>
          rcases ih with h | ⟨a, c, b, rfl, hc, ha⟩
          · exact .inl (List.forall_mem_cons.mpr ⟨hd, h⟩)
          · exact .inr ⟨d :: a, c, b, rfl, hc, List.forall_mem_cons.mpr ⟨hd, ha⟩⟩

/-! ### White space -/

/-- All of the text is white space. -/
def AllSpace (cs : List Char) : Prop :=
  ∀ c ∈ cs, isSpace c = true

theorem isSpace_of_isBlank (h : Ascii.isBlank c = true) : isSpace c = true := by
  simp only [Ascii.isBlank, Bool.or_eq_true, beq_iff_eq] at h
  rcases h with (((rfl | rfl) | rfl) | rfl) | rfl <;> decide

theorem isBlank_of_not_isSpace (h : isSpace c = false) : Ascii.isBlank c = false := by
  refine Bool.eq_false_iff.mpr fun hb => ?_
  rw [isSpace_of_isBlank hb] at h
  cases h

theorem AllSpace.append (h : AllSpace a) (k : AllSpace b) : AllSpace (a ++ b) :=
  fun c hc => (List.mem_append.mp hc).elim (h c) (k c)

theorem trimStart_append (h : AllSpace a) (b : List Char) : trimStart (a ++ b) = trimStart b :=
  List.dropWhile_append_of_pos h

theorem trimEnd_append (h : AllSpace b) (a : List Char) : trimEnd (a ++ b) = trimEnd a := by
  unfold trimEnd
  rw [List.reverse_append, List.dropWhile_append_of_pos fun c hc => h c (List.mem_reverse.mp hc)]

theorem trim_append (h : AllSpace a) (b : List Char) : trim (a ++ b) = trim b := by
  rw [trim, trimStart_append h, trim]

theorem trim_cons (h : isSpace c = true) (cs : List Char) : trim (c :: cs) = trim cs :=
  trim_append (List.forall_mem_singleton.mpr h) cs

theorem trimEnd_cons (c : Char) (cs : List Char) :
    trimEnd (c :: cs) =
      if trimEnd cs = [] ∧ isSpace c = true then [] else c :: trimEnd cs := by
  unfold trimEnd
  rw [List.reverse_cons, List.dropWhile_append]
  by_cases hcs : cs.reverse.dropWhile isSpace = []
  · by_cases hc : isSpace c = true
    · simp [hcs, hc]
    · simp [hcs, hc]
  · simp [hcs]

/-- Behind a text without white space, only what stands there is trimmed. -/
theorem trimEnd_append_of_plain (h : ∀ d ∈ a, isSpace d = false) (b : List Char) :
    trimEnd (a ++ b) = a ++ trimEnd b := by
  induction a with
  | nil => rfl
  | cons d a ih =>
      have hd := h d List.mem_cons_self
      rw [List.cons_append, trimEnd_cons, ih fun e he => h e (List.mem_cons_of_mem d he), if_neg]
      · rfl
      · rw [hd]
        exact fun ha => Bool.false_ne_true ha.2

theorem trimEnd_append_of_ne_nil (h : trimEnd b ≠ []) (a : List Char) :
    trimEnd (a ++ b) = a ++ trimEnd b := by
  induction a with
  | nil => rfl
  | cons d a ih =>
      rw [List.cons_append, trimEnd_cons, ih, if_neg]
      · rfl
      · exact fun ha => List.append_ne_nil_of_right_ne_nil a h ha.1

/-- The text neither starts nor ends with white space. -/
structure Tight (cs : List Char) : Prop where
  first : ∀ c, cs.head? = some c → isSpace c = false
  last : ∀ c, cs.getLast? = some c → isSpace c = false

theorem Tight.of_ends (hc : isSpace c = false) {d : Char} (hd : isSpace d = false)
    (cs : List Char) : Tight (c :: (cs ++ [d])) where
  first e he := by
    cases he
    exact hc
  last e he := by
    rw [← List.cons_append, List.getLast?_concat] at he
    cases he
    exact hd

namespace Tight

theorem trimStart_before (h : Tight x) (hx : x ≠ []) (b : List Char) :
    trimStart (x ++ b) = x ++ b := by
  cases x with
  | nil => exact absurd rfl hx
  | cons c x =>
      have hc := h.first c rfl
      exact List.dropWhile_cons_of_neg (by rw [hc]; exact Bool.false_ne_true)

theorem trimEnd_behind (h : Tight x) (hx : x ≠ []) (a : List Char) :
    trimEnd (a ++ x) = a ++ x := by
  have hne : a ++ x ≠ [] := List.append_ne_nil_of_right_ne_nil a hx
  refine List.rdropWhile_eq_self_iff.mpr fun _ => ?_
  rw [List.getLast_append_of_ne_nil hne hx, h.last _ (List.getLast?_eq_getLast_of_ne_nil hx)]
  exact Bool.false_ne_true

end Tight

theorem tight_trim (cs : List Char) : Tight (trim cs) where
  first c hc := by
    have hp : trim cs <+: trimStart cs := List.rdropWhile_prefix isSpace (trimStart cs)
    have hs := List.head?_dropWhile_not isSpace cs
    obtain ⟨more, hm⟩ := hp
    have hh : (cs.dropWhile isSpace).head? = some c := by
      rw [show cs.dropWhile isSpace = trim cs ++ more from hm.symm, List.head?_append, hc]
      rfl
    rwa [hh] at hs
  last c hc := by
    have hne : trim cs ≠ [] := by
      rintro h
      rw [h] at hc
      cases hc
    have hl := List.rdropWhile_last_not isSpace (trimStart cs) hne
    rw [List.getLast?_eq_getLast_of_ne_nil hne] at hc
    rw [← Option.some.inj hc]
    exact Bool.not_eq_true _ ▸ hl

/-- What trimming takes away is white space. -/
theorem exists_pad (cs : List Char) :
    ∃ l r, cs = l ++ trim cs ++ r ∧ AllSpace l ∧ AllSpace r := by
  refine ⟨cs.takeWhile isSpace, (trimStart cs).rtakeWhile isSpace, ?_,
    fun c hc => List.mem_takeWhile_imp hc, fun c hc => List.mem_rtakeWhile_imp hc⟩
  have hend : trim cs ++ (trimStart cs).rtakeWhile isSpace = trimStart cs :=
    List.rdropWhile_append_rtakeWhile
  rw [List.append_assoc, hend]
  exact List.takeWhile_append_dropWhile.symm

/-- White space around a tight text is taken away. -/
theorem trim_pad (hl : AllSpace l) (hr : AllSpace r) (hx : Tight x) : trim (l ++ x ++ r) = x := by
  rw [trim, List.append_assoc, trimStart_append hl]
  by_cases hn : x = []
  · rw [hn, List.nil_append, ← List.append_nil r, trimStart_append hr]
    rfl
  · have hend : trimEnd x = x := hx.trimEnd_behind hn []
    rw [hx.trimStart_before hn, trimEnd_append hr, hend]

theorem trim_trimEnd (cs : List Char) : trim (trimEnd cs) = trim cs := by
  obtain ⟨l, r, hcs, hl, hr⟩ := exists_pad cs
  have hend : trimEnd cs = trimEnd (l ++ trim cs) := by
    conv_lhs => rw [hcs]
    exact trimEnd_append hr _
  by_cases hx : trim cs = []
  · rw [hx, List.append_nil, ← List.nil_append l, trimEnd_append hl] at hend
    rw [hend, hx]
    rfl
  · rw [hend, (tight_trim cs).trimEnd_behind hx, ← List.append_nil (l ++ trim cs)]
    exact trim_pad hl (fun _ => nofun) (tight_trim cs)

/-- Trimming leaves something of a text if it does so at its end. -/
theorem trimEnd_eq_nil_iff : trimEnd cs = [] ↔ trim cs = [] := by
  constructor
  · intro h
    rw [← trim_trimEnd, h]
    rfl
  · intro h
    obtain ⟨l, r, hcs, hl, hr⟩ := exists_pad cs
    rw [h, List.append_nil] at hcs
    rw [hcs, ← List.nil_append (l ++ r), trimEnd_append (hl.append hr)]
    rfl

/-- Trimmed at its end alone, a text keeps the white space in front. -/
theorem trimEnd_eq (h : trim cs ≠ []) : trimEnd cs = cs.takeWhile isSpace ++ trim cs := by
  conv_lhs => rw [← List.takeWhile_append_dropWhile (p := isSpace) (l := cs)]
  exact trimEnd_append_of_ne_nil h _

theorem Tight.trim (h : Tight x) : trim x = x := by
  have hpad := trim_pad (l := []) (r := []) (fun _ => nofun) (fun _ => nofun) h
  rwa [List.nil_append, List.append_nil] at hpad

end ExprEngine.Text
