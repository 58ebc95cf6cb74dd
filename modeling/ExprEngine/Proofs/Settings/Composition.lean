import ExprEngine.Proofs.Settings.Entries
import ExprEngine.Proofs.Text.Lines

/-!
# Startup files in parts

A startup file that is put together from two holds what they hold, one behind the other, and lines
that make nothing may be taken out of it.

* `Startup.refusals_append`: the refusals in lines behind others are counted from those.
* `Startup.collect_without`: what is made does not change when inert lines are taken out.
* `Startup.ofText_composed`: both for the files as a whole, and the ranges of the settings.
-/

namespace ExprEngine

/-- The error, if its text stands this many lines further down. -/
def StartupError.shifted (k : Nat) (e : StartupError) : StartupError :=
  { e with line := e.line + k }

namespace Startup

/-- The settings that a text makes, in order. -/
def settingsIn (text : String) : List (String × String) :=
  collect Entry.setting? (Text.lines text.toList)

/-! ### Lines that make nothing -/

def isComment (line : List Char) : Bool :=
  (Text.trim line).head? == some ';'

/-- The line is a directive that startup files do not have. -/
def isUnknown (line : List Char) : Bool :=
  (directive? line).any fun (word, _) => word != "set" && word != "def"

/-- The line is refused where it stands alone. -/
def isRefused (line : List Char) : Bool :=
  !(addLine {} 1 line).errors.isEmpty

def isInert (line : List Char) : Bool :=
  isComment line || isUnknown line || isRefused line

theorem entryOf?_of_isComment {line : List Char} (h : isComment line = true) :
    entryOf? line = none := by
  have hd : directive? line = none := by
    unfold directive?
    split
    next hs =>
        rw [isComment, hs] at h
        cases h
    · rfl
  rw [entryOf?, hd]

theorem entryOf?_of_isUnknown {line : List Char} (h : isUnknown line = true) :
    entryOf? line = none := by
  unfold entryOf?
  split
  next hs =>
      rw [isUnknown, hs] at h
      cases h
  next hs =>
      rw [isUnknown, hs] at h
      cases h
  · rfl

/-- A line is refused alone if its entry is a refusal. -/
theorem isRefused_eq (line : List Char) :
    isRefused line = ((entryOf? line).bind Entry.refused?).isSome := by
  rw [isRefused, addLine_eq]
  cases entryOf? line with
  | none => rfl
  | some e => cases e <;> rfl

/-- The entry of an inert line, if it has one, is a refusal. -/
theorem bind_of_isInert {α : Type} {g : Entry → Option α} {line : List Char}
    (h : isInert line = true) (hg : ∀ e, g (.refused e) = none) :
    (entryOf? line).bind g = none := by
  simp only [isInert, Bool.or_eq_true] at h
  rcases h with (h | h) | h
  · rw [entryOf?_of_isComment h]
    rfl
  · rw [entryOf?_of_isUnknown h]
    rfl
  · rw [isRefused_eq] at h
    cases he : entryOf? line with
    | none => rfl
    | some e =>
        rw [he] at h
        cases e with
        | refused e => exact hg e
        | setting | global | define => cases h

/-- What is made does not change when inert lines are taken out. -/
theorem collect_without {α : Type} {g : Entry → Option α} (hg : ∀ e, g (.refused e) = none)
    {p : List Char → Bool} {ls : List (List Char)}
    (hp : ∀ line ∈ ls, p line = true → isInert line = true) :
    collect g (ls.filter fun line => !p line) = collect g ls := by
  induction ls with
  | nil => rfl
  | cons line rest ih =>
      have hrest := ih fun l hl => hp l (List.mem_cons_of_mem line hl)
      rw [collect_cons]
      cases hpl : p line with
      | false =>
          rw [List.filter_cons_of_pos (by rw [hpl]; rfl), collect_cons, hrest]
      | true =>
          rw [List.filter_cons_of_neg (by rw [hpl]; nofun), hrest,
            bind_of_isInert (hp line List.mem_cons_self hpl) hg]
          rfl

/-! ### Numbers of lines -/

theorem refusals_append (number : Nat) (a b : List (List Char)) :
    refusals number (a ++ b) = refusals number a ++ refusals (number + a.length) b := by
  rw [refusals, List.zipIdx_append, List.filterMap_append]
  rfl

theorem refusals_add (k number : Nat) (ls : List (List Char)) :
    refusals (number + k) ls = (refusals number ls).map (.shifted k) := by
  induction ls generalizing number with
  | nil => rfl
  | cons line rest ih =>
      have hrest := ih (number + 1)
      rw [Nat.add_right_comm] at hrest
      rw [refusals_cons, refusals_cons, List.map_append, hrest, refusal?, refusal?]
      cases (entryOf? line).bind Entry.refused? <;> rfl

/-- The lines that are reported are those that are refused alone. -/
theorem map_line_refusals (number : Nat) (ls : List (List Char)) :
    (refusals number ls).map (·.line) =
      ((ls.zipIdx number).filter fun l => isRefused l.1).map Prod.snd := by
  induction ls generalizing number with
  | nil => rfl
  | cons line rest ih =>
      rw [refusals_cons, List.map_append, ih, List.zipIdx_cons, List.filter_cons, isRefused_eq,
        refusal?]
      cases (entryOf? line).bind Entry.refused? <;> rfl

/-! ### Whole files -/

variable {a : String} (b t : String) {p : List Char → Bool}

theorem globals_ofText : (ofText t).globals = collect Entry.global? (Text.lines t.toList) := by
  rw [ofText, globals_addLines]
  rfl

theorem macros_ofText : (ofText t).macros = collect Entry.define? (Text.lines t.toList) := by
  rw [ofText, macros_addLines]
  rfl

theorem errors_ofText : (ofText t).errors = refusals 1 (Text.lines t.toList) := by
  rw [ofText, errors_addLines]
  rfl

theorem settings_ofText : Settings.Applied {} (settingsIn t) (ofText t).settings :=
  settings_addLines {} 1 (Text.lines t.toList)

/-- Lines behind others start from what those have made. -/
theorem settings_append (ha : Text.Ended a.toList) :
    Settings.Applied (ofText a).settings (settingsIn b) (ofText (a ++ b)).settings := by
  rw [ofText, ofText, String.toList_append, Text.lines_append ha, addLines_append]
  exact settings_addLines _ _ _

theorem errors_append (ha : Text.Ended a.toList) :
    (ofText (a ++ b)).errors =
      (ofText a).errors ++ (ofText b).errors.map (.shifted (Text.lines a.toList).length) := by
  rw [errors_ofText, errors_ofText, errors_ofText, String.toList_append, Text.lines_append ha,
    refusals_append, refusals_add]

/-- What is left behind when inert lines are taken out. -/
theorem ofText_without (hp : ∀ line ∈ Text.lines t.toList, p line = true → isInert line = true) :
    (ofText (Text.without p t)).settings = (ofText t).settings ∧
      (ofText (Text.without p t)).globals = (ofText t).globals ∧
      (ofText (Text.without p t)).macros = (ofText t).macros := by
  refine ⟨?_, ?_, ?_⟩
  · have hleft := settings_ofText (Text.without p t)
    rw [settingsIn, Text.lines_without, collect_without (fun _ => rfl) hp] at hleft
    exact hleft.unique (settings_ofText t)
  · rw [globals_ofText, globals_ofText, Text.lines_without, collect_without (fun _ => rfl) hp]
  · rw [macros_ofText, macros_ofText, Text.lines_without, collect_without (fun _ => rfl) hp]

/-- **A startup file is the lines that it has.**  Behind a text that has come to the end of its last
line, the settings of another are accepted one after the other, the variables and macros follow, and
the errors follow with their lines counted on.  The lines reported are those that are refused alone.
Comments, unknown directives and refused lines may be taken out, all or some of them, and nothing
changes but the errors.  Whatever the text is, the settings are in their ranges. -/
theorem ofText_composed (ha : Text.Ended a.toList) (b : String) :
    (Settings.Applied (ofText a).settings (settingsIn b) (ofText (a ++ b)).settings ∧
      (ofText (a ++ b)).globals = (ofText a).globals ++ (ofText b).globals ∧
      (ofText (a ++ b)).macros = (ofText a).macros ++ (ofText b).macros ∧
      (ofText (a ++ b)).errors =
        (ofText a).errors ++ (ofText b).errors.map (.shifted (Text.lines a.toList).length)) ∧
      ∀ t : String,
        (ofText t).errors.map (·.line) =
          (((Text.lines t.toList).zipIdx 1).filter fun l => isRefused l.1).map Prod.snd ∧
        (∀ p : List Char → Bool,
          (∀ line ∈ Text.lines t.toList, p line = true → isInert line = true) →
            (ofText (Text.without p t)).settings = (ofText t).settings ∧
              (ofText (Text.without p t)).globals = (ofText t).globals ∧
              (ofText (Text.without p t)).macros = (ofText t).macros) ∧
        (ofText t).settings.InRange := by
  have hlines : Text.lines (a ++ b).toList = Text.lines a.toList ++ Text.lines b.toList := by
    rw [String.toList_append, Text.lines_append ha]
  refine ⟨⟨settings_append b ha, ?_, ?_, errors_append b ha⟩, fun t => ⟨?_, ?_, ?_⟩⟩
  · rw [globals_ofText, globals_ofText, globals_ofText, hlines, collect_append]
  · rw [macros_ofText, macros_ofText, macros_ofText, hlines, collect_append]
  · rw [errors_ofText, map_line_refusals]
  · exact fun p => ofText_without t
  · exact (settings_ofText t).inRange ⟨by decide, by decide, by decide⟩

/-- A file of two parts, with a comment, an unknown directive and two refused lines in them. -/
theorem ofText_composed_ofTwo :
    Text.Ended "/set x=1\n/set sigfigs=many\n".toList ∧
      (∀ line ∈ Text.lines "; note\n/bind x\n/def nobody".toList,
        isInert line = true → isInert line = true) ∧
      (ofText ("/set x=1\n/set sigfigs=many\n" ++ "; note\n/bind x\n/def nobody")).errors =
        (ofText "/set x=1\n/set sigfigs=many\n").errors ++
          (ofText "; note\n/bind x\n/def nobody").errors.map (.shifted 2) ∧
      (ofText (Text.without isInert "; note\n/bind x\n/def nobody")).settings =
        (ofText "; note\n/bind x\n/def nobody").settings := by
  have ha : Text.Ended "/set x=1\n/set sigfigs=many\n".toList := .inr (by decide)
  have hp : ∀ line ∈ Text.lines "; note\n/bind x\n/def nobody".toList,
      isInert line = true → isInert line = true := fun _ _ h => h
  have h := ofText_composed ha "; note\n/bind x\n/def nobody"
  exact ⟨ha, hp, h.1.2.2.2, ((h.2 _).2.1 isInert hp).1⟩

end Startup

end ExprEngine
