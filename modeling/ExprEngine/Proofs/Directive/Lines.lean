import ExprEngine.Machine.Line
import ExprEngine.Proofs.Directive.Words
import ExprEngine.Proofs.Settings.Entries
import ExprEngine.Proofs.Text.Lines
import ExprEngine.Proofs.Text.Trimming

/-!
# Lines that set a variable or define a macro

`/set` and `/def` stand in startup files and among the lines of input, and each has a reader of its
own.  Both are shown to come to what the arguments say, as each of them cuts those out of the line.

* `Directive.loads_text`: a startup file of one line holds what its trimmed arguments say.
* `Directive.runs_of_ofText`: a line of input does what the arguments behind its space say.
* `Directive.ofText_expression`: a line without that space is an expression.
-/

namespace ExprEngine.Directive

open Startup (Entry)
open Text (AllSpace Tight)

/-- The directives that startup files and lines of input have in common. -/
inductive Kind where
  | set
  | define

namespace Kind

/-- The word of the directive. -/
def word : Kind → List Char
  | .set => ['s', 'e', 't']
  | .define => ['d', 'e', 'f']

/-- A line of the directive: its word, and what stands behind that. -/
def text (k : Kind) (rest : List Char) : String :=
  String.ofList ('/' :: (k.word ++ rest))

/-- The line of input with these arguments. -/
def line : Kind → List Char → Line
  | .set => .setGlobal
  | .define => .define

/-- What the arguments say, where every name is one of a variable. -/
def read : Kind → List Char → Entry
  | .set, args =>
    match setting args with
    | .error e => .refused e
    | .ok (name, value) => .global name value
  | .define, args => .ofDefinition args

end Kind

/-- The entry sets no variable of these names. -/
def Avoids (taken : List String) (e : Entry) : Prop :=
  ∀ name value, e = .global name value → name ∉ taken

/-- What an entry does to a session. -/
def change : Entry → Session → Except DirectiveError Session
  | .setting name value => fun s => s.setVariable name value
  | .global name value => fun s => .ok (s.setGlobal name (.text value))
  | .define name body => fun s => .ok (s.defineMacro name body)
  | .refused e => fun _ => .error e

/-- A startup file of this text holds the entry and nothing else. -/
def Loads (text : String) (e : Entry) : Prop :=
  Startup.ofText text = e.add 1 {}

/-- The line, on whatever machine it is run, does what the entry says and nothing else. -/
def Runs (text : String) (e : Entry) : Prop :=
  Machine.runLine text = Machine.directed (change e)

variable {k : Kind} {rest args name value : List Char} {c : Char} {first : String}

/-! ### Names and values -/

theorem settingOfWords_assigned
    (h : Text.splitAtFirst (· == '=') first.toList = some (name, value)) (hn : name ≠ [])
    (more : List String) :
    settingOfWords (first :: more) =
      .ok (String.ofList name, " ".intercalate (String.ofList value :: more)) := by
  have hne : (String.ofList name).isEmpty = false := by simpa using hn
  simp only [settingOfWords, h, pure_bind, hne]
  rfl

theorem settingOfWords_spaced (h : Text.splitAtFirst (· == '=') first.toList = none)
    (hn : first ≠ "") (second : String) (more : List String) :
    settingOfWords (first :: second :: more) =
      .ok (first, " ".intercalate (second :: more)) := by
  have hne : first.isEmpty = false := by simpa using hn
  simp only [settingOfWords, h, List.isEmpty_cons, pure_bind, hne]
  rfl

theorem settingOfWords_alone (h : Text.splitAtFirst (· == '=') first.toList = none) :
    settingOfWords [first] = .error (.noValue first) := by
  simp only [settingOfWords, h]
  rfl

/-- What a name and a value that were read have come from. -/
theorem of_settingOfWords {more : List String} {name value : String}
    (h : settingOfWords (first :: more) = .ok (name, value)) :
    (∃ v, first.toList = name.toList ++ '=' :: v ∧
        value = " ".intercalate (String.ofList v :: more)) ∨
      name = first ∧ more ≠ [] ∧ value = " ".intercalate more := by
  rcases Text.exists_split_or (· == '=') first.toList with hf | ⟨n, d, v, hf, hd, hn⟩
  · have hsplit := Text.splitAtFirst_eq_none hf
    cases more with
    | nil =>
        rw [settingOfWords_alone hsplit] at h
        cases h
    | cons second more =>
        by_cases hne : first = ""
        · rw [hne] at h
          cases h
        · rw [settingOfWords_spaced hsplit hne] at h
          cases h
          exact .inr ⟨rfl, List.cons_ne_nil second more, rfl⟩
  · have hsplit := Text.splitAtFirst_append hn hd v
    rw [← hf] at hsplit
    by_cases hne : n = []
    · rw [hne] at hsplit
      simp only [settingOfWords, hsplit] at h
      cases h
    · rw [settingOfWords_assigned hsplit hne] at h
      cases h
      exact .inl ⟨v, by rw [hf, String.toList_ofList, eq_of_beq hd], rfl⟩

/-- Only the value of a single word is missing. -/
theorem of_settingOfWords_noValue {ws : List String} {w : String}
    (h : settingOfWords ws = .error (.noValue w)) : ws = [w] := by
  cases ws with
  | nil => cases h
  | cons first more =>
      cases hs : Text.splitAtFirst (· == '=') first.toList with
      | none =>
          cases more with
          | nil =>
              rw [settingOfWords_alone hs] at h
              cases h
              rfl
          | cons second more =>
              by_cases hne : first = ""
              · rw [hne] at h
                cases h
              · rw [settingOfWords_spaced hs hne] at h
                cases h
      | some pair =>
          by_cases hne : pair.1 = []
          · simp only [settingOfWords, hs, pure_bind, hne] at h
            cases h
          · rw [settingOfWords_assigned hs hne] at h
            cases h

/-! ### Startup files -/

theorem isSpace_of_mem_word {d : Char} (h : d ∈ k.word) : Text.isSpace d = false := by
  have hall : (k.word.any Text.isSpace) = false := by cases k <;> rfl
  exact Bool.not_eq_true _ ▸ List.any_eq_false.mp hall d h

theorem isBlank_of_mem_word {d : Char} (h : d ∈ k.word) : Ascii.isBlank d = false :=
  Text.isBlank_of_not_isSpace (isSpace_of_mem_word h)

theorem trim_text (k : Kind) (rest : List Char) :
    Text.trim (k.text rest).toList = '/' :: (k.word ++ Text.trimEnd rest) := by
  have hplain : ∀ d ∈ '/' :: k.word, Text.isSpace d = false :=
    List.forall_mem_cons.mpr ⟨rfl, fun _ => isSpace_of_mem_word⟩
  have hfront : Text.trimStart (k.text rest).toList = '/' :: k.word ++ rest := by
    rw [Kind.text, String.toList_ofList]
    rfl
  rw [Text.trim, hfront, Text.trimEnd_append_of_plain hplain, List.cons_append]

theorem directive?_of_trim {line : List Char} (h : Text.trim line = '/' :: rest) :
    Startup.directive? line =
      some (String.ofList ((Text.splitAtFirst Ascii.isBlank rest).getD (rest, [])).1,
        Text.trim ((Text.splitAtFirst Ascii.isBlank rest).getD (rest, [])).2) := by
  rw [Startup.directive?, h]
  rfl

/-- What a startup file reads in a line: the word and the trimmed arguments. -/
theorem directive?_text (k : Kind) (hc : Ascii.isBlank c = true) (rest : List Char) :
    Startup.directive? (k.text (c :: rest)).toList =
      some (String.ofList k.word, Text.trim (c :: rest)) := by
  have hword : ∀ d ∈ k.word, Ascii.isBlank d = false := fun _ => isBlank_of_mem_word
  have hargs : Text.trim (Text.trimEnd (c :: rest)) = Text.trim (c :: rest) :=
    Text.trim_trimEnd (c :: rest)
  rw [directive?_of_trim (trim_text k (c :: rest)), ← hargs, Text.trimEnd_cons]
  split
  · rw [List.append_nil, Text.splitAtFirst_eq_none hword]
    rfl
  · rw [Text.splitAtFirst_append hword hc, Text.trim_cons (Text.isSpace_of_isBlank hc)]
    rfl

theorem ofSetting_eq_read (h : Avoids Settings.names (Kind.set.read args)) :
    Entry.ofSetting args = Kind.set.read args := by
  unfold Entry.ofSetting
  rw [Kind.read] at h ⊢
  cases hs : setting args with
  | error e => rfl
  | ok pair =>
      rw [hs] at h
      simp only [Entry.ofName, Settings.set_of_notMem (h pair.1 pair.2 rfl)]

/-- A startup file of one line holds what the arguments say, without the white space around
them. -/
theorem loads_text (hc : Ascii.isBlank c = true) (hline : '\n' ∉ c :: rest)
    (hx : Text.trim (c :: rest) = args) (ha : Avoids Settings.names (k.read args)) :
    Loads (k.text (c :: rest)) (k.read args) := by
  have hlines : Text.lines (k.text (c :: rest)).toList = [(k.text (c :: rest)).toList] := by
    refine Text.lines_of_notMem (fun h => ?_) ?_
    · rw [Kind.text, String.toList_ofList, List.mem_cons, List.mem_append] at h
      rcases h with h | h | h
      · cases h
      · cases isBlank_of_mem_word h
      · exact hline h
    · rw [Kind.text, String.toList_ofList]
      exact List.cons_ne_nil _ _
  have hentry : Startup.entryOf? (k.text (c :: rest)).toList = some (k.read args) := by
    rw [Startup.entryOf?, directive?_text k hc, hx]
    cases k with
    | set => exact congrArg some (ofSetting_eq_read ha)
    | define => rfl
  rw [Loads, Startup.ofText, hlines, Startup.addLines, Startup.addLine_eq, hentry]
  rfl

/-! ### Lines of input -/

/-- What a line of input reads in it: the arguments behind a space, up to the white space at its
end. -/
theorem ofText_directive (k : Kind) (h : Text.trimEnd rest = ' ' :: args) :
    Line.ofText (k.text rest) = k.line args := by
  rw [Line.ofText, trim_text, h]
  cases k <;> rfl

/-- Without the space it is an expression, whatever it may be. -/
theorem ofText_expression (k : Kind) (h : ∀ args, Text.trimEnd rest ≠ ' ' :: args) :
    ∃ source, Line.ofText (k.text rest) = .expression source := by
  rw [Line.ofText, trim_text]
  cases ht : Text.trimEnd rest with
  | nil => cases k <;> exact ⟨_, rfl⟩
  | cons c args =>
      have hc : ' ' ≠ c := by
        rintro rfl
        exact h args ht
      cases k <;> simp [Kind.word, Text.dropStart?, hc]

theorem setVariable_of_ne {name : String} (h : name ≠ "sigfigs") (s : Session) (value : String) :
    s.setVariable name value = .ok (s.setGlobal name (.text value)) :=
  if_neg h

/-- A line of input does what its arguments say. -/
theorem runs_of_ofText {text : String} (h : Line.ofText text = k.line args)
    (ha : Avoids ["sigfigs"] (k.read args)) : Runs text (k.read args) := by
  rw [Runs, Machine.runLine, h]
  cases k with
  | set =>
      refine congrArg Machine.directed (funext fun s => ?_)
      rw [Kind.read] at ha ⊢
      cases hs : setting args with
      | error e => rfl
      | ok pair =>
          rw [hs] at ha
          have hname := ha pair.1 pair.2 rfl
          rw [List.mem_singleton] at hname
          exact setVariable_of_ne hname s pair.2
  | define =>
      refine congrArg Machine.directed (funext fun s => ?_)
      rw [Kind.read, Entry.ofDefinition]
      cases definition args <;> rfl

/-- A line that is an expression does what no directive does. -/
theorem not_runs_of_expression {text source : String} (h : Line.ofText text = .expression source)
    (e : Entry) : ¬ Runs text e := by
  intro hr
  have hm := congrFun hr {}
  rw [Machine.runLine, h] at hm
  simp only [bind, EStateM.bind, Machine.directed] at hm
  cases hv : Machine.evaluateSource source {} with
  | ok v m =>
      rw [hv] at hm
      cases hc : change e ({} : Machine).session <;> rw [hc] at hm <;> cases hm
  | error d m =>
      rw [hv] at hm
      cases hc : change e ({} : Machine).session <;> rw [hc] at hm <;> cases hm

end ExprEngine.Directive
