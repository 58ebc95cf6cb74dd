import ExprEngine.Text.Position
import Mathlib.Data.List.Basic

/-!
# Lines that are taken out of a text

The lines of a text, each with the line feed that ends it, are the text again; only the last one may
have none.  If some are taken out, what is left is a text whose lines are the others.

* `Text.lines_append`: the lines of a text behind a text that has come to the end of its last line.
* `Text.lines_without`: the lines that are left.
-/

namespace ExprEngine.Text

/-- The text is empty or ends in a line feed. -/
def Ended (cs : List Char) : Prop :=
  cs = [] ∨ cs.getLast? = some '\n'

/-- A line with the line feed that ends it, if there is one. -/
abbrev EndedLine := List Char × List Char

/-- The characters of a line. -/
def EndedLine.text (l : EndedLine) : List Char :=
  l.1 ++ l.2

/-- The lines of a text, each with the line feed that ends it. -/
def endedLines : List Char → List EndedLine
  | [] => []
  | c :: cs =>
    if c = '\n' then ([], [c]) :: endedLines cs
    else match endedLines cs with
      | [] => [([c], [])]
      | (line, stop) :: rest => (c :: line, stop) :: rest

/-- The text without the lines that `p` holds of. -/
def without (p : List Char → Bool) (s : String) : String :=
  String.ofList (((endedLines s.toList).filter fun l => !p l.1).flatMap EndedLine.text)

theorem map_fst_endedLines (cs : List Char) : (endedLines cs).map Prod.fst = lines cs := by
  induction cs with
  | nil => rfl
  | cons c cs ih =>
      rw [endedLines, lines, ← ih]
      split
      · rfl
      · cases endedLines cs <;> rfl

/-- No character is lost. -/
theorem flatMap_endedLines (cs : List Char) : (endedLines cs).flatMap EndedLine.text = cs := by
  induction cs with
  | nil => rfl
  | cons c cs ih =>
      rw [endedLines]
      split
      · rw [List.flatMap_cons, ih]
        rfl
      · cases hl : endedLines cs with
        | nil =>
            rw [hl] at ih
            rw [← ih]
            rfl
        | cons l rest =>
            rw [hl, List.flatMap_cons] at ih
            rw [List.flatMap_cons, ← ih]
            rfl

/-- A line feed ends a line wherever another line follows, and stands nowhere else. -/
structure WellEnded (rows : List EndedLine) : Prop where
  before : rows.Pairwise fun l _ => l.2 = ['\n']
  each : ∀ l ∈ rows, '\n' ∉ l.1 ∧ (l.2 = ['\n'] ∨ l.2 = [] ∧ l.1 ≠ [])

theorem WellEnded.sublist {rows more : List EndedLine} (h : WellEnded more)
    (hs : rows.Sublist more) : WellEnded rows :=
  ⟨h.before.sublist hs, fun l hl => h.each l (hs.subset hl)⟩

theorem wellEnded_endedLines (cs : List Char) : WellEnded (endedLines cs) := by
  induction cs with
  | nil => exact ⟨.nil, fun l hl => absurd hl List.not_mem_nil⟩
  | cons c cs ih =>
      rw [endedLines]
      by_cases hc : c = '\n'
      · rw [if_pos hc, hc]
        exact ⟨.cons (fun _ _ => rfl) ih.before,
          List.forall_mem_cons.mpr ⟨⟨List.not_mem_nil, .inl rfl⟩, ih.each⟩⟩
      · rw [if_neg hc]
        cases hl : endedLines cs with
        | nil =>
            have hn : '\n' ∉ [c] := fun h => hc (List.mem_singleton.mp h).symm
            exact ⟨List.pairwise_singleton _ _,
              List.forall_mem_singleton.mpr ⟨hn, .inr ⟨rfl, List.cons_ne_nil c []⟩⟩⟩
        | cons l rest =>
            rw [hl] at ih
            obtain ⟨hbefore, hrest⟩ := List.pairwise_cons.mp ih.before
            obtain ⟨⟨hn, hstop⟩, hothers⟩ := List.forall_mem_cons.mp ih.each
            have hn' : '\n' ∉ c :: l.1 := fun h =>
              (List.mem_cons.mp h).elim (fun e => hc e.symm) hn
            exact ⟨.cons hbefore hrest, List.forall_mem_cons.mpr
              ⟨⟨hn', hstop.imp_right fun h => ⟨h.1, List.cons_ne_nil _ _⟩⟩, hothers⟩⟩

/-- A text without a line feed is one line. -/
theorem lines_of_notMem {line : List Char} (h : '\n' ∉ line) (hne : line ≠ []) :
    lines line = [line] := by
  induction line with
  | nil => exact absurd rfl hne
  | cons c line ih =>
      simp only [List.mem_cons, not_or] at h
      obtain ⟨hc, hl⟩ := h
      rw [lines, if_neg (Ne.symm hc)]
      by_cases hn : line = []
      · rw [hn]
        rfl
      · rw [ih hl hn]

/-- The lines that a text was put together from are its lines. -/
theorem lines_flatMap {rows : List EndedLine} (h : WellEnded rows) :
    lines (rows.flatMap EndedLine.text) = rows.map Prod.fst := by
  induction rows with
  | nil => rfl
  | cons l rest ih =>
      obtain ⟨hbefore, hrest⟩ := List.pairwise_cons.mp h.before
      obtain ⟨⟨hn, hstop⟩, hothers⟩ := List.forall_mem_cons.mp h.each
      have hr := ih ⟨hrest, hothers⟩
      rw [List.flatMap_cons, EndedLine.text, List.map_cons, ← hr]
      rcases hstop with hs | ⟨hs, hne⟩
      · rw [hs, List.append_assoc]
        exact lines_append_newline l.1 _ hn
      · cases rest with
        | nil =>
            rw [hs, List.append_nil, List.flatMap_nil, List.append_nil, lines_of_notMem hn hne]
            rfl
        | cons k more =>
            -- another line follows, so this one is ended
            have hk := hbefore k List.mem_cons_self
            rw [hs] at hk
            cases hk

theorem lines_without (p : List Char → Bool) (s : String) :
    lines (without p s).toList = (lines s.toList).filter fun line => !p line := by
  have hs : (((endedLines s.toList).filter fun l => !p l.1)).Sublist (endedLines s.toList) :=
    List.filter_sublist
  rw [without, String.toList_ofList, lines_flatMap ((wellEnded_endedLines s.toList).sublist hs),
    ← map_fst_endedLines, List.filter_map]
  rfl

/-- Where the first text has come to the end of its last line, the lines are those of both. -/
theorem lines_append {a : List Char} (h : Ended a) (b : List Char) :
    lines (a ++ b) = lines a ++ lines b := by
  induction a with
  | nil => rfl
  | cons c a ih =>
      have ha : Ended a := by
        rcases h with h | h
        · cases h
        · cases a with
          | nil => exact .inl rfl
          | cons d a => exact .inr h
      rw [List.cons_append, lines, lines, ih ha]
      by_cases hc : c = '\n'
      · rw [if_pos hc, if_pos hc]
        rfl
      · rw [if_neg hc, if_neg hc]
        cases hl : lines a with
        | cons line rest => rfl
        | nil =>
            -- then there is nothing but a character that ends no line
            have hnil : a = [] := by
              cases a with
              | nil => rfl
              | cons d a =>
                  rw [lines] at hl
                  split at hl
                  · cases hl
                  · split at hl <;> cases hl
            subst hnil
            rcases h with h | h
            · cases h
            · exact absurd (Option.some.inj h) hc

end ExprEngine.Text
