import ExprEngine.Proofs.Settings.Changes
import ExprEngine.Settings.StartupFile
import Mathlib.Data.List.Basic

/-!
# Entries of a startup file

A line of a startup file comes to an entry, or to nothing, and to the same wherever it stands: what
has been read before it does not matter.  What the file holds is its entries, each of them added in
its place.

* `Startup.addLine_eq`: a line adds its entry.
* `Startup.collected_addLines`: what is collected from the entries of some lines.
* `Startup.settings_addLines`: the settings that the entries of some lines lead to.
-/

namespace ExprEngine

namespace Startup

/-- What a line comes to. -/
inductive Entry where
  | setting (name value : String)
  | global (name value : String)
  | define (name body : String)
  | refused (e : DirectiveError)
deriving DecidableEq

namespace Entry

/-- The entry of a name that is set. -/
def ofName (name value : String) : Entry :=
  match ({} : Settings).set name value with
  | .error e => .refused (.setting e)
  | .ok none => .global name value
  | .ok (some _) => .setting name value

/-- The entry of the arguments of `/set`. -/
def ofSetting (args : List Char) : Entry :=
  match Directive.setting args with
  | .error e => .refused e
  | .ok (name, value) => ofName name value

/-- The entry of the arguments of `/def`. -/
def ofDefinition (args : List Char) : Entry :=
  match Directive.definition args with
  | .error e => .refused e
  | .ok (name, body) => .define name body

/-- What a file holds with an entry more, whose line has this number. -/
def add (number : Nat) (s : Startup) : Entry → Startup
  | .setting name value =>
    { s with settings := (s.settings.set name value).toOption.join.getD s.settings }
  | .global name value => { s with globals := s.globals ++ [(name, value)] }
  | .define name body => { s with macros := s.macros ++ [(name, body)] }
  | .refused e => { s with errors := s.errors ++ [⟨number, e⟩] }

def setting? : Entry → Option (String × String)
  | .setting name value => some (name, value)
  | _ => none

def global? : Entry → Option (String × String)
  | .global name value => some (name, value)
  | _ => none

def define? : Entry → Option (String × String)
  | .define name body => some (name, body)
  | _ => none

def refused? : Entry → Option DirectiveError
  | .refused e => some e
  | _ => none

end Entry

/-- The entry of a line, if it has one. -/
def entryOf? (line : List Char) : Option Entry :=
  match directive? line with
  | some ("set", args) => some (.ofSetting args)
  | some ("def", args) => some (.ofDefinition args)
  | _ => none

/-! ### Lines and their entries -/

theorem addLine_setting {line args : List Char} (s : Startup) (number : Nat)
    (h : directive? line = some ("set", args)) :
    s.addLine number line = (Entry.ofSetting args).add number s := by
  rw [addLine, h, Entry.ofSetting]
  cases hd : Directive.setting args with
  | error e => simp only [apply, hd, bind, Except.bind, Entry.add]
  | ok pair =>
      obtain ⟨name, value⟩ := pair
      simp only [apply, hd, bind, Except.bind, Entry.ofName]
      cases Settings.verdict name value with
      | refused e he => simp only [he, Except.mapError, Entry.add]
      | unknown _ hu => simp only [hu, Except.mapError, Entry.add, pure, Except.pure]
      | accepted f hf =>
          simp only [hf, Except.mapError, Entry.add, pure, Except.pure]
          rfl

theorem addLine_definition {line args : List Char} (s : Startup) (number : Nat)
    (h : directive? line = some ("def", args)) :
    s.addLine number line = (Entry.ofDefinition args).add number s := by
  rw [addLine, h, Entry.ofDefinition]
  cases hd : Directive.definition args with
  | error e => simp only [apply, hd, bind, Except.bind, Entry.add]
  | ok pair => simp only [apply, hd, bind, Except.bind, Entry.add, pure, Except.pure]

/-- A line adds its entry, if it has one. -/
theorem addLine_eq (s : Startup) (number : Nat) (line : List Char) :
    s.addLine number line = (entryOf? line).elim s (·.add number s) := by
  unfold entryOf?
  split
  next args h => exact addLine_setting s number h
  next args h => exact addLine_definition s number h
  next hset hdef =>
      rw [addLine]
      split
      · rfl
      next word args h =>
        have happly : s.apply word args = .ok s := by
          unfold apply
          split
          · exact absurd h (hset args)
          · exact absurd h (hdef args)
          · rfl
        rw [happly]
        rfl

/-- A setting that a line makes is accepted wherever the line stands. -/
theorem accepted_of_entry {line : List Char} {name value : String}
    (h : entryOf? line = some (.setting name value)) :
    ∃ f : Settings → Settings, ∀ s : Settings, s.set name value = .ok (some (f s)) := by
  unfold entryOf? at h
  split at h
  next args _ =>
      rw [Option.some.injEq, Entry.ofSetting] at h
      split at h
      · cases h
      · next name' value' _ =>
          rw [Entry.ofName] at h
          split at h
          · cases h
          · cases h
          · next t ht =>
              cases h
              cases Settings.verdict name value with
              | refused e he =>
                  rw [he] at ht
                  cases ht
              | unknown _ hu =>
                  rw [hu] at ht
                  cases ht
              | accepted f hf => exact ⟨f, hf⟩
  next args _ =>
      rw [Option.some.injEq, Entry.ofDefinition] at h
      split at h <;> cases h
  next => cases h

/-! ### Files and their entries -/

/-- What the lines make of the kind that `g` takes from their entries. -/
def collect {α : Type} (g : Entry → Option α) (ls : List (List Char)) : List α :=
  ls.filterMap fun line => (entryOf? line).bind g

theorem collect_cons {α : Type} (g : Entry → Option α) (line : List Char)
    (rest : List (List Char)) :
    collect g (line :: rest) = ((entryOf? line).bind g).toList ++ collect g rest := by
  rw [collect, List.filterMap_cons, collect]
  cases (entryOf? line).bind g <;> rfl

theorem collect_append {α : Type} (g : Entry → Option α) (a b : List (List Char)) :
    collect g (a ++ b) = collect g a ++ collect g b :=
  List.filterMap_append

/-- What is reported of a line of this number. -/
def refusal? (number : Nat) (line : List Char) : Option StartupError :=
  ((entryOf? line).bind Entry.refused?).map fun e => ⟨number, e⟩

/-- What is reported of lines the first of which has this number. -/
def refusals (number : Nat) (ls : List (List Char)) : List StartupError :=
  (ls.zipIdx number).filterMap fun l => refusal? l.2 l.1

theorem refusals_cons (number : Nat) (line : List Char) (rest : List (List Char)) :
    refusals number (line :: rest) =
      (refusal? number line).toList ++ refusals (number + 1) rest := by
  rw [refusals, List.zipIdx_cons, List.filterMap_cons, refusals]
  cases refusal? number line <;> rfl

theorem addLines_append (s : Startup) (number : Nat) (a b : List (List Char)) :
    s.addLines number (a ++ b) = (s.addLines number a).addLines (number + a.length) b := by
  induction a generalizing s number with
  | nil => rfl
  | cons line a ih =>
      rw [List.cons_append, addLines, addLines, ih, List.length_cons, Nat.add_right_comm,
        Nat.add_assoc]

/-- A part of a file that each entry adds to what `g` takes from it. -/
theorem collect_addLines {α : Type} {f : Startup → List α} {g : Entry → Option α}
    (h : ∀ s number (e : Entry), f (e.add number s) = f s ++ (g e).toList)
    (s : Startup) (number : Nat) (ls : List (List Char)) :
    f (s.addLines number ls) = f s ++ collect g ls := by
  induction ls generalizing s number with
  | nil => exact (List.append_nil _).symm
  | cons line rest ih =>
      rw [addLines, ih, addLine_eq, collect_cons]
      cases entryOf? line with
      | none => rfl
      | some e => rw [Option.elim_some, h, List.append_assoc, Option.bind_some]

theorem globals_addLines (s : Startup) (number : Nat) (ls : List (List Char)) :
    (s.addLines number ls).globals = s.globals ++ collect Entry.global? ls := by
  refine collect_addLines (fun s number e => ?_) s number ls
  cases e <;> simp [Entry.add, Entry.global?]

theorem macros_addLines (s : Startup) (number : Nat) (ls : List (List Char)) :
    (s.addLines number ls).macros = s.macros ++ collect Entry.define? ls := by
  refine collect_addLines (fun s number e => ?_) s number ls
  cases e <;> simp [Entry.add, Entry.define?]

theorem errors_addLines (s : Startup) (number : Nat) (ls : List (List Char)) :
    (s.addLines number ls).errors = s.errors ++ refusals number ls := by
  induction ls generalizing s number with
  | nil => exact (List.append_nil _).symm
  | cons line rest ih =>
      rw [addLines, ih, addLine_eq, refusals_cons, refusal?]
      cases entryOf? line with
      | none => rfl
      | some e =>
          cases e with
          | refused e => exact List.append_assoc ..
          | setting | global | define => rfl

/-- The settings that the lines make are accepted one after the other. -/
theorem settings_addLines (s : Startup) (number : Nat) (ls : List (List Char)) :
    Settings.Applied s.settings (collect Entry.setting? ls) (s.addLines number ls).settings := by
  induction ls generalizing s number with
  | nil => exact .nil
  | cons line rest ih =>
      have hrest := ih (s.addLine number line) (number + 1)
      rw [addLine_eq] at hrest
      rw [addLines, addLine_eq, collect_cons]
      cases he : entryOf? line with
      | none =>
          rw [he] at hrest
          exact hrest
      | some e =>
          rw [he] at hrest
          cases e with
          | setting name value =>
              obtain ⟨f, hf⟩ := accepted_of_entry he
              have hadd : ((Entry.setting name value).add number s).settings = f s.settings := by
                rw [Entry.add, hf]
                rfl
              rw [Option.elim_some, hadd] at hrest
              exact .cons (hf s.settings) hrest
          | global name value => exact hrest
          | define name body => exact hrest
          | refused e => exact hrest

end Startup

end ExprEngine
