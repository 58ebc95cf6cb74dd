import ExprEngine.Proofs.Directive.Lines

/-!
# Variables set to quoted texts

A variable may be set to any text, written in quotes behind its name and a `=`.  Behind a space in
place of the `=` every text will do but the empty one, as a word of no characters is not read.

* `Directive.words_assigned`, `Directive.words_spaced`: the words of the two forms.
* `Directive.means_of_tight`: what both readers of lines make of arguments without white space
  around them.
* `Directive.quoted_texts_read`: rows of quoted texts and the two forms, in all readers.
-/

namespace ExprEngine.Directive

open Startup (Entry)
open Text (AllSpace Tight)

/-- A name that needs no quotes, and is not divided. -/
structure Bare (name : String) : Prop where
  ne_empty : name ≠ ""
  plain : ∀ c ∈ name.toList, Text.isSpace c = false ∧ c ≠ '"' ∧ c ≠ '='

/-- The arguments of `/set` stand for the entry: alone, in a startup file, and in a line of
input. -/
structure Means (args : List Char) (e : Entry) : Prop where
  read : Kind.set.read args = e
  loads : Avoids Settings.names e → '\n' ∉ args → Loads (Kind.set.text (' ' :: args)) e
  runs : Avoids ["sigfigs"] e → Runs (Kind.set.text (' ' :: args)) e

variable {args : List Char} {name : String}

/-- White space around the arguments is the only thing that a reader of lines could take away. -/
theorem means_of_tight {e : Entry} (hx : Tight args) (hne : args ≠ [])
    (he : Kind.set.read args = e) : Means args e where
  read := he
  loads ha hline := by
    have htrim : Text.trim (' ' :: args) = args := (Text.trim_cons rfl args).trans hx.trim
    have hrest : '\n' ∉ ' ' :: args := fun h => (List.mem_cons.mp h).elim (by decide) hline
    rw [← he] at ha ⊢
    exact loads_text rfl hrest htrim ha
  runs ha := by
    rw [← he] at ha ⊢
    have hend : Text.trimEnd (' ' :: args) = ' ' :: args := hx.trimEnd_behind hne [' ']
    exact runs_of_ofText (ofText_directive .set hend) ha

namespace Bare

theorem isBlank (h : Bare name) : ∀ c ∈ name.toList, c ≠ '"' ∧ Ascii.isBlank c = false := by
  intro c hc
  obtain ⟨hs, hq, -⟩ := h.plain c hc
  exact ⟨hq, Text.isBlank_of_not_isSpace hs⟩

end Bare

/-! ### The two forms -/

/-- The name, a `=` and the quoted text. -/
def assigned (name value : String) : List Char :=
  name.toList ++ '=' :: quoted value.toList

/-- The name, a space and the quoted text. -/
def spaced (name value : String) : List Char :=
  name.toList ++ ' ' :: quoted value.toList

theorem words_assigned (h : Bare name) (value : String) :
    words (assigned name value) = [String.ofList (name.toList ++ '=' :: value.toList)] := by
  have hquoted := wordsFrom_quoted value.toList ('=' :: name.toList.reverse) []
  have hrev : value.toList.reverse ++ '=' :: name.toList.reverse =
      (name.toList ++ '=' :: value.toList).reverse := by simp
  rw [List.append_nil, wordsFrom_nil, hrev, collected_reverse, if_neg (by simp)] at hquoted
  rw [words, assigned, wordsFrom_plain h.isBlank, wordsFrom_outside (by decide) rfl,
    List.append_nil, hquoted]

theorem words_spaced (h : Bare name) (value : String) :
    words (spaced name value) = name :: if value = "" then [] else [value] := by
  have hname := collected_ofList name
  rw [if_neg h.ne_empty] at hname
  have hquoted := wordsFrom_quoted value.toList [] []
  rw [List.append_nil, wordsFrom_nil, collected_ofList] at hquoted
  rw [words, spaced, wordsFrom_plain h.isBlank, wordsFrom_blank rfl, hname, hquoted]
  rfl

theorem setting_assigned (h : Bare name) (value : String) :
    setting (assigned name value) = .ok (name, value) := by
  have hsplit : Text.splitAtFirst (· == '=')
      (String.ofList (name.toList ++ '=' :: value.toList)).toList =
        some (name.toList, value.toList) := by
    rw [String.toList_ofList]
    exact Text.splitAtFirst_append (fun c hc => beq_false_of_ne (h.plain c hc).2.2) rfl _
  have hne : name.toList ≠ [] := fun hn => h.ne_empty (String.toList_eq_nil_iff.mp hn)
  rw [setting, words_assigned h, settingOfWords_assigned hsplit hne, String.ofList_toList,
    String.ofList_toList, String.intercalate_singleton]

theorem setting_spaced (h : Bare name) (value : String) :
    setting (spaced name value) =
      if value = "" then .error (.noValue name) else .ok (name, value) := by
  have hsplit : Text.splitAtFirst (· == '=') name.toList = none :=
    Text.splitAtFirst_eq_none fun c hc => beq_false_of_ne (h.plain c hc).2.2
  rw [setting, words_spaced h]
  split
  · exact settingOfWords_alone hsplit
  · rw [settingOfWords_spaced hsplit h.ne_empty, String.intercalate_singleton]

/-- The quotes at its end keep either form from being trimmed. -/
theorem tight_quoted (h : Bare name) (middle : Char) (t : List Char) :
    Tight (name.toList ++ middle :: quoted t) := by
  have hne : name.toList ≠ [] := fun hn => h.ne_empty (String.toList_eq_nil_iff.mp hn)
  obtain ⟨c, rest, hname⟩ := List.exists_cons_of_ne_nil hne
  have hc : c ∈ name.toList := by
    rw [hname]
    exact List.mem_cons_self
  have hends := Tight.of_ends (h.plain c hc).1 (d := '"') rfl
    (rest ++ middle :: '"' :: t.flatMap escaped)
  rw [hname, quoted]
  simpa using hends

/-- **Quoted texts are read back as they were written, but for the empty one.**  Of a row of them
every reader takes those that have characters, so the row itself exactly if all of them have.  A
name and a quoted text with a `=` between them set the variable to the text, whatever it is; with a
space between them they do so for every text but the empty one, which is reported as missing. -/
theorem quoted_texts_read (ts : List String) (h : Bare name) (value : String) :
    words (quotedRow ts) = ts.filter (· ≠ "") ∧
      (words (quotedRow ts) = ts ↔ "" ∉ ts) ∧
      Means (assigned name value) (.global name value) ∧
      Means (spaced name value)
        (if value = "" then .refused (.noValue name) else .global name value) := by
  have hne (c : Char) : name.toList ++ c :: quoted value.toList ≠ [] :=
    List.append_ne_nil_of_right_ne_nil _ (List.cons_ne_nil _ _)
  refine ⟨words_quotedRow ts, ?_, ?_, ?_⟩
  · rw [words_quotedRow, List.filter_eq_self]
    simp only [ne_eq, decide_not, Bool.not_eq_true', decide_eq_false_iff_not]
    exact ⟨fun hall hmem => hall "" hmem rfl, fun hmem t ht he => hmem (he ▸ ht)⟩
  · refine means_of_tight (tight_quoted h '=' value.toList) (hne '=') ?_
    rw [Kind.read, setting_assigned h]
  · refine means_of_tight (tight_quoted h ' ' value.toList) (hne ' ') ?_
    rw [Kind.read, setting_spaced h]
    split_ifs <;> rfl

/-- A text with a blank, a quote and a backslash at its end. -/
theorem quoted_texts_read_ofOne :
    Bare "x" ∧ words (quotedRow ["a \"b\\", "c"]) = ["a \"b\\", "c"] ∧
      Loads (Kind.set.text (' ' :: spaced "x" "a \"b\\")) (.global "x" "a \"b\\") ∧
      Runs (Kind.set.text (' ' :: spaced "x" "a \"b\\")) (.global "x" "a \"b\\") := by
  have hx : Bare "x" := ⟨by decide, List.forall_mem_singleton.mpr ⟨rfl, by decide, by decide⟩⟩
  have h := quoted_texts_read ["a \"b\\", "c"] hx "a \"b\\"
  have hmeans := h.2.2.2
  rw [if_neg (by decide)] at hmeans
  exact ⟨hx, h.2.1.mpr (by decide), hmeans.loads (fun n v he => by cases he; decide) (by decide),
    hmeans.runs fun n v he => by cases he; decide⟩

/-- A word of no characters is not read, and behind a space a value of none is missing. -/
theorem empty_text_not_read :
    words (quotedRow [""]) ≠ [""] ∧ setting "name \"\"".toList = .error (.noValue "name") ∧
      setting "name=\"\"".toList = .ok ("name", "") := by
  decide

end ExprEngine.Directive
