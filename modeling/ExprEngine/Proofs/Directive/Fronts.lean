import ExprEngine.Proofs.Directive.Lines

/-!
# White space in front of arguments

A definition is trimmed, and the words of a setting are separated by blanks, so what stands in front
of the arguments is often lost; but white space that is no blank belongs to the first word of a
setting, and it shows in what is read.

* `Directive.read_definition`: white space in front of a definition makes no difference.
* `Directive.read_blanks`: nor do blanks in front of what sets a variable.
* `Directive.weight_of_setting`: how many characters there are in what a setting is read from.
* `Directive.read_ne_of_space`: other white space in front of it always makes a difference.
-/

namespace ExprEngine.Directive

open Startup (Entry)
open Text (AllSpace)

variable {a args x : List Char} {c u : Char}

/-! ### What is lost -/

theorem ne_of_isSpace (h : Text.isSpace c = true) : c ≠ '"' ∧ c ≠ '=' := by
  refine ⟨?_, ?_⟩ <;>
  · rintro rfl
    cases h

/-- White space in front of a definition makes no difference. -/
theorem read_definition (ha : AllSpace a) (x : List Char) :
    Kind.define.read (a ++ x) = Kind.define.read x := by
  have hp : ∀ d ∈ a, (d == '=') = false := fun d hd => beq_false_of_ne (ne_of_isSpace (ha d hd)).2
  have hdef : definition (a ++ x) = definition x := by
    rcases Text.exists_split_or (· == '=') x with hx | ⟨name, d, body, rfl, hd, hname⟩
    · have hax : ∀ d ∈ a ++ x, (d == '=') = false := fun d hd =>
        (List.mem_append.mp hd).elim (hp d) (hx d)
      rw [definition, definition, Text.splitAtFirst_eq_none hax, Text.splitAtFirst_eq_none hx]
    · have han : ∀ d ∈ a ++ name, (d == '=') = false := fun d hd =>
        (List.mem_append.mp hd).elim (hp d) (hname d)
      rw [definition, definition, ← List.append_assoc, Text.splitAtFirst_append han hd,
        Text.splitAtFirst_append hname hd]
      simp only [Text.trim_append ha]
  rw [Kind.read, Kind.read, Entry.ofDefinition, Entry.ofDefinition, hdef]

/-- Blanks in front of what sets a variable make no difference. -/
theorem read_blanks (ha : ∀ c ∈ a, Ascii.isBlank c = true) (x : List Char) :
    Kind.set.read (a ++ x) = Kind.set.read x := by
  rw [Kind.read, Kind.read, setting, setting, words_blanks ha]

/-! ### How much is read -/

/-- The characters of the words, with one more for the end of each. -/
def weight : List String → Nat
  | [] => 0
  | w :: ws => w.length + 1 + weight ws

theorem weight_append (ws vs : List String) : weight (ws ++ vs) = weight ws + weight vs := by
  induction ws with
  | nil => exact (Nat.zero_add _).symm
  | cons w ws ih => rw [List.cons_append, weight, weight, ih, Nat.add_assoc (w.length + 1)]

theorem weight_intercalate (w : String) (ws : List String) :
    (" ".intercalate (w :: ws)).length + 1 = weight (w :: ws) := by
  induction ws generalizing w with
  | nil => rw [String.intercalate_singleton, weight, weight, Nat.add_zero]
  | cons v ws ih =>
      have hv := ih v
      have hspace : " ".length = 1 := rfl
      rw [String.intercalate_cons_cons, String.length_append, String.length_append, weight,
        ← hv, hspace]
      omega

/-- A name and a value have the characters of the words that they were read from. -/
theorem weight_of_setting {name value : String} (h : setting args = .ok (name, value)) :
    weight (words args) = name.length + value.length + 2 := by
  rw [setting] at h
  cases hw : words args with
  | nil =>
      rw [hw] at h
      cases h
  | cons first more =>
      rw [hw] at h
      rcases of_settingOfWords h with ⟨v, hfirst, rfl⟩ | ⟨rfl, hmore, rfl⟩
      · have hvalue := weight_intercalate (String.ofList v) more
        have hlength := congrArg List.length hfirst
        rw [String.length_toList, List.length_append, List.length_cons,
          String.length_toList] at hlength
        rw [weight, String.length_ofList] at hvalue
        rw [weight]
        omega
      · obtain ⟨second, rest, rfl⟩ := List.exists_cons_of_ne_nil hmore
        have hvalue := weight_intercalate second rest
        rw [weight, ← hvalue]
        omega

/-- A character that is neither a quote nor a blank is the first of the first word. -/
theorem words_cons (hq : u ≠ '"') (hs : Ascii.isBlank u = false) (cs : List Char) :
    ∃ t more, words (u :: cs) = String.ofList (u :: t) :: more ∧
      words cs = collected t.reverse ++ more := by
  obtain ⟨t, more, h⟩ := wordsFrom_start false cs
  refine ⟨t.reverse, more, ?_, ?_⟩
  · rw [words, wordsFrom_outside hq hs, h]
    have hrev : t ++ [u] = (u :: t.reverse).reverse := by simp
    rw [hrev, collected_reverse, if_neg (List.cons_ne_nil _ _)]
    rfl
  · rw [words, h, List.reverse_reverse, List.append_nil]

theorem weight_words_lt (hq : u ≠ '"') (hs : Ascii.isBlank u = false) (cs : List Char) :
    weight (words cs) < weight (words (u :: cs)) := by
  obtain ⟨t, more, hu, hcs⟩ := words_cons hq hs cs
  rw [hu, hcs, weight_append, weight, String.length_ofList, List.length_cons,
    collected_reverse]
  split
  · rw [weight]
    omega
  · rw [weight, String.length_ofList, weight]
    omega

theorem weight_words_le (ha : AllSpace a) (x : List Char) :
    weight (words x) ≤ weight (words (a ++ x)) := by
  induction a with
  | nil => exact Nat.le_refl _
  | cons c a ih =>
      obtain ⟨hc, hrest⟩ := List.forall_mem_cons.mp ha
      refine Nat.le_trans (ih hrest) ?_
      cases hb : Ascii.isBlank c with
      | true =>
          have hblank : ∀ d ∈ [c], Ascii.isBlank d = true := List.forall_mem_singleton.mpr hb
          have hw := words_blanks hblank (a ++ x)
          rw [List.cons_append, ← hw]
          exact Nat.le_refl _
      | false => exact Nat.le_of_lt (weight_words_lt (ne_of_isSpace hc).1 hb (a ++ x))

/-! ### What is not -/

/-- What is set by words the first of which starts with `u`: a variable whose name starts so too, or
none, for want of a value. -/
theorem setting_cons (hu : u ≠ '=') (first : List Char) (more : List String) :
    (∃ name value, settingOfWords (String.ofList (u :: first) :: more) =
        .ok (String.ofList (u :: name), value)) ∨
      settingOfWords (String.ofList (u :: first) :: more) =
        .error (.noValue (String.ofList (u :: first))) := by
  have hu' : (u == '=') = false := beq_false_of_ne hu
  rcases Text.exists_split_or (· == '=') first with hf | ⟨name, d, value, rfl, hd, hname⟩
  · have hsplit : Text.splitAtFirst (· == '=') (String.ofList (u :: first)).toList = none := by
      rw [String.toList_ofList]
      exact Text.splitAtFirst_eq_none (List.forall_mem_cons.mpr ⟨hu', hf⟩)
    cases more with
    | nil => exact .inr (settingOfWords_alone hsplit)
    | cons second more =>
        have hne : String.ofList (u :: first) ≠ "" := by simp
        exact .inl ⟨first, _, settingOfWords_spaced hsplit hne second more⟩
  · have hsplit : Text.splitAtFirst (· == '=')
        (String.ofList (u :: (name ++ d :: value))).toList = some (u :: name, value) := by
      rw [String.toList_ofList, ← List.cons_append]
      have hall : ∀ e ∈ u :: name, (e == '=') = false := List.forall_mem_cons.mpr ⟨hu', hname⟩
      exact Text.splitAtFirst_append hall hd value
    exact .inl ⟨name, _, settingOfWords_assigned hsplit (List.cons_ne_nil u name) more⟩

theorem read_set_of_ok {name value : String} (h : setting args = .ok (name, value)) :
    Kind.set.read args = .global name value := by
  rw [Kind.read, h]

theorem read_set_of_error {e : DirectiveError} (h : setting args = .error e) :
    Kind.set.read args = .refused e := by
  rw [Kind.read, h]

theorem setting_eq_of_read_eq (h : Kind.set.read args = Kind.set.read x) :
    setting args = setting x := by
  cases ha : setting args <;> cases hx : setting x
  · rw [read_set_of_error ha, read_set_of_error hx] at h
    cases h
    rfl
  · rw [read_set_of_error ha, read_set_of_ok hx] at h
    cases h
  · rw [read_set_of_ok ha, read_set_of_error hx] at h
    cases h
  · rw [read_set_of_ok ha, read_set_of_ok hx, Entry.global.injEq] at h
    rw [Prod.ext h.1 h.2]

/-- Settings that are the same, and more than the want of an argument or a name, were read from as
many characters. -/
theorem weight_eq_of_setting_eq (h : setting args = setting x)
    (hset : (∃ pair, setting args = .ok pair) ∨ ∃ w, setting args = .error (.noValue w)) :
    weight (words args) = weight (words x) := by
  rcases hset with ⟨pair, hok⟩ | ⟨w, herr⟩
  · rw [weight_of_setting hok, weight_of_setting (h.symm.trans hok)]
  · rw [of_settingOfWords_noValue herr, of_settingOfWords_noValue (h.symm.trans herr)]

/-- The first white space that is no blank starts the first word, and makes the words longer. -/
theorem words_of_space (ha : AllSpace a) (hu : ∃ c ∈ a, Ascii.isBlank c = false) (x : List Char) :
    ∃ u first more, Text.isSpace u = true ∧
      words (a ++ x) = String.ofList (u :: first) :: more ∧
      weight (words x) < weight (words (a ++ x)) := by
  obtain ⟨c, hc, hcb⟩ := hu
  rcases Text.exists_split_or (fun d => !Ascii.isBlank d) a with hall | ⟨p, u, b, rfl, hb, hp⟩
  · have hc' := hall c hc
    rw [hcb] at hc'
    cases hc'
  · simp only [Bool.not_eq_true', Bool.not_eq_false'] at hb hp
    have hspace : Text.isSpace u = true := ha u (List.mem_append_right p List.mem_cons_self)
    have hrest : AllSpace b := fun d hd =>
      ha d (List.mem_append_right p (List.mem_cons_of_mem u hd))
    have hq := (ne_of_isSpace hspace).1
    obtain ⟨first, more, hfirst, -⟩ := words_cons hq hb (b ++ x)
    refine ⟨u, first, more, hspace, ?_, ?_⟩
    · rw [List.append_assoc, words_blanks hp, List.cons_append, hfirst]
    · rw [List.append_assoc, words_blanks hp, List.cons_append]
      exact Nat.lt_of_le_of_lt (weight_words_le hrest x) (weight_words_lt hq hb (b ++ x))

/-- White space that is no blank, in front of what sets a variable, always makes a difference: it
belongs to the first word, and so to the name or to the word that has no value. -/
theorem read_ne_of_space (ha : AllSpace a) (hu : ∃ c ∈ a, Ascii.isBlank c = false)
    (x : List Char) :
    Avoids ["sigfigs"] (Kind.set.read (a ++ x)) ∧
      Kind.set.read (a ++ x) ≠ Kind.set.read x := by
  obtain ⟨u, first, more, hspace, hwords, hlt⟩ := words_of_space ha hu x
  have hset := setting_cons (ne_of_isSpace hspace).2 first more
  rw [← hwords] at hset
  refine ⟨fun n v hn hmem => ?_, fun heq => ?_⟩
  · rcases hset with ⟨name, value, hok⟩ | herr
    · rw [read_set_of_ok hok] at hn
      cases hn
      have hname := congrArg String.toList (List.mem_singleton.mp hmem)
      rw [String.toList_ofList] at hname
      obtain ⟨rfl, -⟩ := List.cons.inj hname
      cases hspace
    · rw [read_set_of_error herr] at hn
      cases hn
  · have hweight := weight_eq_of_setting_eq (setting_eq_of_read_eq heq)
      (hset.imp (fun ⟨_, _, hok⟩ => ⟨_, hok⟩) fun herr => ⟨_, herr⟩)
    exact Nat.ne_of_gt hlt hweight

end ExprEngine.Directive
