import ExprEngine.Proofs.Directive.Fronts

/-!
# Where the two readers of directives agree

A startup file takes any blank behind the word of a directive and trims the arguments of all white
space.  A line of input takes a space only and the arguments as they stand behind it.  So they read
a line alike if a space follows the word, there are arguments, and no white space but ASCII blanks
stands in front of those that set a variable; and on no other line.

* `Directive.eq_of_loads`, `Directive.eq_of_runs`: a line loads, or runs, one entry only.
* `Directive.readAlike_iff`: so agreement is equality of what the readers cut out of the line.
* `Directive.readAlike_iff_aligned`: the lines that are read alike.
-/

namespace ExprEngine.Directive

open Startup (Entry)
open Text (AllSpace)

variable {a args further sep x : List Char} {k : Kind} {text : String}

/-! ### One entry for both readers -/

/-- Both readers take the line for the same entry. -/
def ReadAlike (text : String) : Prop :=
  ∃ e, Loads text e ∧ Runs text e

theorem setting?_read (k : Kind) (args : List Char) : (k.read args).setting? = none := by
  cases k with
  | set =>
      rw [Kind.read]
      cases setting args <;> rfl
  | define =>
      rw [Kind.read, Entry.ofDefinition]
      cases definition args <;> rfl

theorem eq_of_loads {e d : Entry} (he : Loads text e) (hd : Loads text d)
    (hs : d.setting? = none) : e = d := by
  have h : e.add 1 {} = d.add 1 {} := he.symm.trans hd
  cases e <;> cases d <;> simp_all [Entry.add, Entry.setting?]

theorem eq_of_directed {f g : Session → Except DirectiveError Session}
    (h : Machine.directed f = Machine.directed g) (s : Session) : f s = g s := by
  have hs := congrFun h { session := s }
  simp only [Machine.directed] at hs
  cases hf : f s <;> cases hg : g s <;> rw [hf, hg] at hs <;> cases hs <;> rfl

theorem entries_insert_empty {α : Type} (x : String) (a : α) :
    ((∅ : Table α).insert x a).entries = [(x, a)] := by
  have hx : x ∉ (∅ : Table α).keys := List.not_mem_nil
  rw [Table.insert, dif_neg hx]
  rfl

theorem eq_of_runs {e d : Entry} (he : Runs text e) (hd : Runs text d)
    (hse : e.setting? = none) (hsd : d.setting? = none) : e = d := by
  have h : change e {} = change d {} := eq_of_directed (he.symm.trans hd) {}
  cases e with
  | setting => cases hse
  | refused x =>
      cases d with
      | setting => cases hsd
      | global | define => cases h
      | refused y =>
          cases h
          rfl
  | global x v =>
      cases d with
      | setting => cases hsd
      | refused => cases h
      | global y w =>
          have hg := congrArg (fun s => s.globals.entries) (Except.ok.inj h)
          simp only [Session.setGlobal, entries_insert_empty] at hg
          cases hg
          rfl
      | define y w =>
          have hg := congrArg (fun s => s.globals.entries) (Except.ok.inj h)
          simp only [Session.setGlobal, Session.defineMacro, entries_insert_empty] at hg
          cases hg
  | define x v =>
      cases d with
      | setting => cases hsd
      | refused => cases h
      | global y w =>
          have hg := congrArg (fun s => s.globals.entries) (Except.ok.inj h)
          simp only [Session.setGlobal, Session.defineMacro, entries_insert_empty] at hg
          cases hg
      | define y w =>
          have hm := congrArg (fun s => s.macros.entries) (Except.ok.inj h)
          simp only [Session.defineMacro, entries_insert_empty] at hm
          cases hm
          rfl

/-- A line is read alike exactly if what the two readers cut out of it says the same. -/
theorem readAlike_iff (hx : Loads text (k.read x)) (hy : Runs text (k.read args)) :
    ReadAlike text ↔ k.read args = k.read x := by
  constructor
  · rintro ⟨e, hl, hr⟩
    have he := eq_of_loads hl hx (setting?_read k x)
    rw [he] at hr
    exact eq_of_runs hy hr (setting?_read k args) (setting?_read k x)
  · intro h
    rw [h] at hy
    exact ⟨_, hx, hy⟩

/-- A definition is read alike whatever white space is left in front of it. -/
theorem readAlike_define (hx : Loads text (Kind.define.read x))
    (hline : Line.ofText text = .define (a ++ x)) (ha : AllSpace a) : ReadAlike text := by
  have hread := read_definition ha x
  have hsig : Avoids ["sigfigs"] (Kind.define.read (a ++ x)) := by
    intro name value he
    rw [Kind.read, Entry.ofDefinition] at he
    split at he <;> cases he
  exact (readAlike_iff hx (runs_of_ofText hline hsig)).mpr hread

/-- What sets a variable is read alike exactly if only blanks are left in front of it. -/
theorem readAlike_set_iff (hx : Loads text (Kind.set.read x))
    (hsig : Avoids ["sigfigs"] (Kind.set.read x))
    (hline : Line.ofText text = .setGlobal (a ++ x)) (ha : AllSpace a) :
    ReadAlike text ↔ ∀ c ∈ a, Ascii.isBlank c = true := by
  by_cases hb : ∀ c ∈ a, Ascii.isBlank c = true
  · have hread := read_blanks hb x
    rw [← hread] at hsig
    exact iff_of_true ((readAlike_iff hx (runs_of_ofText hline hsig)).mpr hread) hb
  · have hother : ∃ c ∈ a, Ascii.isBlank c = false := by
      simp only [not_forall] at hb
      obtain ⟨c, hc, hcb⟩ := hb
      exact ⟨c, hc, Bool.eq_false_iff.mpr hcb⟩
    obtain ⟨havoids, hread⟩ := read_ne_of_space ha hother x
    exact iff_of_false (fun h => hread ((readAlike_iff hx (runs_of_ofText hline havoids)).mp h)) hb

/-- What stands behind the word of the directive is what both readers expect there. -/
structure Aligned (k : Kind) (sep further : List Char) : Prop where
  space : sep.head? = some ' '
  argument : Text.trim further ≠ []
  blanks : k = .set → ∀ c ∈ further.takeWhile Text.isSpace, Ascii.isBlank c = true

/-- A row of spaces and tabs. -/
structure Separator (sep : List Char) : Prop where
  ne_nil : sep ≠ []
  each : ∀ c ∈ sep, c = ' ' ∨ c = '\t'

namespace Separator

variable (h : Separator sep)
include h

theorem isBlank : ∀ c ∈ sep, Ascii.isBlank c = true := by
  intro c hc
  rcases h.each c hc with rfl | rfl <;> rfl

theorem allSpace : AllSpace sep :=
  fun c hc => Text.isSpace_of_isBlank (h.isBlank c hc)

/-- A startup file always reads the arguments behind a separator, and trims them. -/
theorem loads (hline : '\n' ∉ further)
    (ha : Avoids Settings.names (k.read (Text.trim further))) :
    Loads (k.text (sep ++ further)) (k.read (Text.trim further)) := by
  have htrim := Text.trim_append h.allSpace further
  have hall : '\n' ∉ sep ++ further := fun hn =>
    (List.mem_append.mp hn).elim (fun hs => by cases h.each _ hs <;> contradiction) hline
  obtain ⟨c, s, rfl⟩ := List.exists_cons_of_ne_nil h.ne_nil
  exact loads_text (h.isBlank c List.mem_cons_self) hall htrim ha

/-- A line of input is an expression if no space follows its word, or no argument. -/
theorem expression (hs : ¬ (sep.head? = some ' ' ∧ Text.trim further ≠ [])) :
    ∃ source, Line.ofText (k.text (sep ++ further)) = .expression source := by
  refine ofText_expression k fun args hend => hs ?_
  have hargs : Text.trim further ≠ [] := by
    intro hn
    rw [← Text.trim_append h.allSpace, ← Text.trimEnd_eq_nil_iff, hend] at hn
    cases hn
  have hne : Text.trimEnd further ≠ [] := fun hn => hargs (Text.trimEnd_eq_nil_iff.mp hn)
  obtain ⟨c, s, rfl⟩ := List.exists_cons_of_ne_nil h.ne_nil
  rw [Text.trimEnd_append_of_ne_nil hne] at hend
  exact ⟨congrArg some (List.cons.inj hend).1, hargs⟩

end Separator

/-- Behind a space a line of input reads all but the white space at its end. -/
theorem ofText_separated (k : Kind) (s : List Char) (h : Text.trim further ≠ []) :
    Line.ofText (k.text (' ' :: s ++ further)) =
      k.line (s ++ further.takeWhile Text.isSpace ++ Text.trim further) := by
  have hne : Text.trimEnd further ≠ [] := fun hn => h (Text.trimEnd_eq_nil_iff.mp hn)
  apply ofText_directive
  rw [Text.trimEnd_append_of_ne_nil hne, Text.trimEnd_eq h, List.append_assoc]
  rfl

/-- **The two readers agree on aligned lines and on no others.**  Take a line of `/set` or `/def`,
any row of spaces and tabs, and any further text, which names no setting.  A startup file reads the
trimmed text as the arguments.  The line of input is the same entry, with the same variable, macro
or error, exactly if a space follows the word, the further text is not blank, and for `/set` it has
no white space in front but ASCII blanks.  If there is no space or no text, it is an expression. -/
theorem readAlike_iff_aligned (k : Kind) (hsep : Separator sep) (hline : '\n' ∉ further)
    (ha : Avoids Settings.names (k.read (Text.trim further))) :
    Loads (k.text (sep ++ further)) (k.read (Text.trim further)) ∧
      (ReadAlike (k.text (sep ++ further)) ↔ Aligned k sep further) ∧
      (¬ (sep.head? = some ' ' ∧ Text.trim further ≠ []) →
        ∃ source, Line.ofText (k.text (sep ++ further)) = .expression source) := by
  have hloads := hsep.loads hline ha
  refine ⟨hloads, ?_, hsep.expression⟩
  by_cases hs : sep.head? = some ' ' ∧ Text.trim further ≠ []
  · obtain ⟨hspace, hargs⟩ := hs
    obtain ⟨s, rfl⟩ := List.head?_eq_some_iff.mp hspace
    have hfront : AllSpace (s ++ further.takeWhile Text.isSpace) :=
      AllSpace.append (fun c hc => hsep.allSpace c (List.mem_cons_of_mem ' ' hc))
        fun c hc => List.mem_takeWhile_imp hc
    cases k with
    | define =>
        exact iff_of_true (readAlike_define hloads (ofText_separated .define s hargs) hfront)
          ⟨hspace, hargs, nofun⟩
    | set =>
        have hsig : Avoids ["sigfigs"] (Kind.set.read (Text.trim further)) := fun n v he hn =>
          ha n v he (List.mem_cons.mpr (.inl (List.mem_singleton.mp hn)))
        have hblank (c : Char) (hc : c ∈ s) : Ascii.isBlank c = true :=
          hsep.isBlank c (List.mem_cons_of_mem ' ' hc)
        rw [readAlike_set_iff hloads hsig (ofText_separated .set s hargs) hfront,
          List.forall_mem_append]
        exact ⟨fun h => ⟨hspace, hargs, fun _ => h.2⟩, fun h => ⟨hblank, h.blanks rfl⟩⟩
  · obtain ⟨source, hexpr⟩ := hsep.expression (k := k) hs
    exact iff_of_false (fun ⟨e, _, hr⟩ => not_runs_of_expression hexpr e hr)
      fun h => hs ⟨h.space, h.argument⟩

/-- A variable that is set behind a space and a tab. -/
theorem readAlike_iff_aligned_ofOne :
    Separator [' ', '\t'] ∧ '\n' ∉ ['x', '=', '1', ' '] ∧
      Avoids Settings.names (Kind.set.read (Text.trim ['x', '=', '1', ' '])) ∧
      ReadAlike "/set \tx=1 " := by
  have hsep : Separator [' ', '\t'] :=
    ⟨List.cons_ne_nil _ _,
      List.forall_mem_cons.mpr ⟨.inl rfl, List.forall_mem_singleton.mpr (.inr rfl)⟩⟩
  have hread : Kind.set.read (Text.trim ['x', '=', '1', ' ']) = .global "x" "1" := by decide
  have ha : Avoids Settings.names (Kind.set.read (Text.trim ['x', '=', '1', ' '])) := by
    rw [hread]
    intro name value he
    cases he
    decide
  have h := (readAlike_iff_aligned .set hsep (by decide) ha).2.1
  exact ⟨hsep, by decide, ha, h.mpr ⟨rfl, by decide, fun _ _ hc => absurd hc List.not_mem_nil⟩⟩

/-- Behind a tab the startup file sets the variable, and the line of input is no directive. -/
theorem tab_not_read_alike :
    Loads "/set\tx=1" (.global "x" "1") ∧ ∀ e, ¬ Runs "/set\tx=1" e := by
  have hexpr : Line.ofText "/set\tx=1" = .expression "/set\tx=1" := by decide
  exact ⟨rfl, fun e => not_runs_of_expression hexpr e⟩

end ExprEngine.Directive
