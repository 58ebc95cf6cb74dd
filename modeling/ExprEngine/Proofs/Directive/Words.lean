import ExprEngine.Directive.Words

/-!
# Quoted words

A text may be written as a word between double quotes, whatever characters it has, with a backslash
before each quote and each backslash (`quoted`).  Words are read from such a row as they were
written, but a word of no characters is not read at all.

* `Directive.wordsFrom_quote` and its likes: one step of the reader for each kind of character.
* `Directive.wordsFrom_quoted`: a quoted text adds its characters to the word that it stands in.
* `Directive.words_quotedRow`: the words of a row of quoted texts.
-/

namespace ExprEngine.Directive

variable {c : Char}

/-! ### Steps of the reader -/

theorem collected_reverse (w : List Char) :
    collected w.reverse = if w = [] then [] else [String.ofList w] := by
  unfold collected
  rw [List.isEmpty_reverse, List.reverse_reverse]
  cases w <;> rfl

@[simp] theorem wordsFrom_nil (q : Bool) (w : List Char) : wordsFrom q w [] = collected w := by
  rw [wordsFrom]

theorem wordsFrom_quote (q : Bool) (w rest : List Char) :
    wordsFrom q w ('"' :: rest) = wordsFrom (!q) w rest := by
  cases rest with
  | nil => simp [wordsFrom]
  | cons d rest => simp [wordsFrom]

theorem wordsFrom_escape (w : List Char) (c : Char) (rest : List Char) :
    wordsFrom true w ('\\' :: c :: rest) = wordsFrom true (c :: w) rest := by
  simp [wordsFrom]

theorem wordsFrom_blank (hc : Ascii.isBlank c = true) (w rest : List Char) :
    wordsFrom false w (c :: rest) = collected w ++ wordsFrom false [] rest := by
  have hq : c ≠ '"' := by
    rintro rfl
    cases hc
  cases rest with
  | nil =>
      have hb : c ≠ '\\' := by
        rintro rfl
        cases hc
      rw [wordsFrom.eq_4 false w c hb]
      simp [hc, collected]
  | cons d rest => simp [wordsFrom, hc, hq]

theorem wordsFrom_inside (hq : c ≠ '"') (hb : c ≠ '\\') (w rest : List Char) :
    wordsFrom true w (c :: rest) = wordsFrom true (c :: w) rest := by
  cases rest with
  | nil => simp [wordsFrom, hq]
  | cons d rest => simp [wordsFrom, hq, hb]

theorem wordsFrom_outside (hq : c ≠ '"') (hs : Ascii.isBlank c = false) (w rest : List Char) :
    wordsFrom false w (c :: rest) = wordsFrom false (c :: w) rest := by
  cases rest with
  | nil =>
      by_cases hb : c = '\\'
      · rw [hb]
        simp [wordsFrom]
      · simp [wordsFrom, hq, hs]
  | cons d rest => simp [wordsFrom, hq, hs]

/-- What is read up to the end of a word comes behind what has been collected, and neither it nor
what follows depends on that. -/
theorem wordsFrom_start : (q : Bool) → (cs : List Char) →
    ∃ t more, ∀ w, wordsFrom q w cs = collected (t ++ w) ++ more
  | q, [] => ⟨[], [], fun w => by rw [wordsFrom_nil, List.nil_append, List.append_nil]⟩
  | q, c :: cs => by
      have push (h : ∀ w, wordsFrom q w (c :: cs) = wordsFrom q (c :: w) cs) :
          ∃ t more, ∀ w, wordsFrom q w (c :: cs) = collected (t ++ w) ++ more := by
        obtain ⟨t, more, hcs⟩ := wordsFrom_start q cs
        exact ⟨t ++ [c], more, fun w => by rw [h, hcs, List.append_assoc, List.singleton_append]⟩
      by_cases hq : c = '"'
      · obtain ⟨t, more, hcs⟩ := wordsFrom_start (!q) cs
        exact ⟨t, more, fun w => by rw [hq, wordsFrom_quote, hcs]⟩
      cases q with
      | false =>
          cases hc : Ascii.isBlank c with
          | true => exact ⟨[], wordsFrom false [] cs, fun w => wordsFrom_blank hc w cs⟩
          | false => exact push fun w => wordsFrom_outside hq hc w cs
      | true =>
          by_cases hb : c = '\\'
          · cases cs with
            | nil => exact ⟨[], [], fun w => by simp [hb, wordsFrom]⟩
            | cons d cs =>
                obtain ⟨t, more, hcs⟩ := wordsFrom_start true cs
                refine ⟨t ++ [d], more, fun w => ?_⟩
                rw [hb, wordsFrom_escape, hcs, List.append_assoc, List.singleton_append]
          · exact push fun w => wordsFrom_inside hq hb w cs

/-! ### Quoted texts -/

/-- A character between quotes. -/
def escaped (c : Char) : List Char :=
  if c = '"' ∨ c = '\\' then ['\\', c] else [c]

/-- A text as a quoted word. -/
def quoted (t : List Char) : List Char :=
  '"' :: t.flatMap escaped ++ ['"']

/-- The texts as quoted words with a blank between each two. -/
def quotedRow : List String → List Char
  | [] => []
  | [t] => quoted t.toList
  | t :: u :: ts => quoted t.toList ++ ' ' :: quotedRow (u :: ts)

theorem wordsFrom_escaped (t w rest : List Char) :
    wordsFrom true w (t.flatMap escaped ++ rest) = wordsFrom true (t.reverse ++ w) rest := by
  induction t generalizing w with
  | nil => rfl
  | cons c t ih =>
      have hstep : wordsFrom true w (escaped c ++ (t.flatMap escaped ++ rest)) =
          wordsFrom true (c :: w) (t.flatMap escaped ++ rest) := by
        by_cases hc : c = '"' ∨ c = '\\'
        · rw [escaped, if_pos hc]
          exact wordsFrom_escape w c _
        · rw [escaped, if_neg hc]
          exact wordsFrom_inside (fun h => hc (.inl h)) (fun h => hc (.inr h)) w _
      rw [List.flatMap_cons, List.append_assoc, hstep, ih, List.reverse_cons, List.append_assoc]
      rfl

/-- A quoted text adds its characters to the word that it stands in. -/
theorem wordsFrom_quoted (t w rest : List Char) :
    wordsFrom false w (quoted t ++ rest) = wordsFrom false (t.reverse ++ w) rest := by
  rw [quoted, List.cons_append, List.cons_append, wordsFrom_quote, List.append_assoc,
    Bool.not_false, wordsFrom_escaped]
  exact wordsFrom_quote true _ rest

/-- So does a text that needs no quotes. -/
theorem wordsFrom_plain {t : List Char} (h : ∀ c ∈ t, c ≠ '"' ∧ Ascii.isBlank c = false)
    (w rest : List Char) :
    wordsFrom false w (t ++ rest) = wordsFrom false (t.reverse ++ w) rest := by
  induction t generalizing w with
  | nil => rfl
  | cons c t ih =>
      obtain ⟨hq, hb⟩ := h c List.mem_cons_self
      rw [List.cons_append, wordsFrom_outside hq hb,
        ih fun d hd => h d (List.mem_cons_of_mem c hd), List.reverse_cons, List.append_assoc]
      rfl

/-- Blanks in front of the words are passed over. -/
theorem words_blanks {bs : List Char} (h : ∀ c ∈ bs, Ascii.isBlank c = true) (rest : List Char) :
    words (bs ++ rest) = words rest := by
  induction bs with
  | nil => rfl
  | cons c bs ih =>
      rw [words, List.cons_append, wordsFrom_blank (h c List.mem_cons_self)]
      exact ih fun d hd => h d (List.mem_cons_of_mem c hd)

theorem collected_ofList (t : String) :
    collected (t.toList.reverse ++ []) = if t = "" then [] else [t] := by
  rw [List.append_nil, collected_reverse]
  simp only [String.toList_eq_nil_iff, String.ofList_toList]

/-- **The words of a row of quoted texts** are the texts that have characters, in order. -/
theorem words_quotedRow (ts : List String) : words (quotedRow ts) = ts.filter (· ≠ "") := by
  induction ts with
  | nil => rfl
  | cons t ts ih =>
      have hfront : words (quotedRow (t :: ts)) = (if t = "" then [] else [t]) ++
          words (quotedRow ts) := by
        rw [← collected_ofList]
        cases ts with
        | nil =>
            have h := wordsFrom_quoted t.toList [] []
            rw [List.append_nil, wordsFrom_nil] at h
            exact h.trans (List.append_nil _).symm
        | cons u ts =>
            rw [quotedRow, words, wordsFrom_quoted, wordsFrom_blank rfl]
            rfl
      rw [hfront, ih, List.filter_cons]
      by_cases ht : t = ""
      · simp [ht]
      · simp [ht]

end ExprEngine.Directive
