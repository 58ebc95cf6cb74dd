import ExprEngine.CommandLine.Run
import ExprEngine.Proofs.Directive.Lines
import ExprEngine.Proofs.Grammar.Alone
import ExprEngine.Proofs.Machine.Padding

/-!
# Listings of lines

A line that is to be listed is compiled and run as it stands, unless it starts with a slash; any
other line is trimmed first, and then it is seen whether it is a directive.  The two ways come to
the same where the line is an expression, with blanks around it or without.  They do not where
blanks stand in front of a directive, or other white space in front of anything.

* `CommandLine.shown`: a reply is what the run of the line comes to.
* `CommandLine.SameEffect`, `CommandLine.Adds`: replies that differ in what goes to standard error,
  and there by a listing.
* `CommandLine.runLine_of_isDirective`: what directives come to.
* `CommandLine.Misread`: the lines that are not read alike.
* `CommandLine.ran_of_misread`, `CommandLine.ran_of_not_misread`: the two kinds of lines.
* `CommandLine.outputText_runInput`: listings of the lines of standard input.
-/

namespace ExprEngine.CommandLine

open Text (AllSpace Tight)
open Machine (EndsLike)

/-! ### Replies -/

/-- The machine with nothing left to show. -/
def cleared (m : Machine) : Machine :=
  { m with session := { m.session with output := #[], diagnostics := #[] } }

/-- What the machine has to show: its output and its reports. -/
def said (m : Machine) : List Written :=
  m.session.output.toList.map .outputLine ++ m.reports.map fun t => .errorLine ("% " ++ t)

/-- The reply to a line that was run without a listing. -/
def shown : EStateM.Result Halt Machine (Except DirectiveError (Option Value)) → Reply
  | .ok (.ok (some v)) m =>
    ⟨cleared m, said m ++ [.outputLine ((cleared m).session.toText v)], true⟩
  | .ok (.ok none) m => ⟨cleared m, said m, true⟩
  | .ok (.error e) m => ⟨cleared m, said m ++ [.errorLine ("% " ++ e.message)], false⟩
  | .error _ m => ⟨cleared m, said m, false⟩

/-- A line as it is run, with its listing if one is asked for. -/
def ran (listing : Bool) (line : String) (m : Machine) :
    String × EStateM.Result Halt Machine (Except DirectiveError (Option Value)) :=
  if listing && line.toList.head? != some '/' then listAndRun line m
  else ("", Machine.runLine line m)

theorem runLine_eq (listing : Bool) (line : String) (m : Machine) :
    runLine listing line m =
      { shown (ran listing line m).2 with
        written :=
          (if (ran listing line m).1.isEmpty then [] else [.error (ran listing line m).1]) ++
            (shown (ran listing line m).2).written } := by
  unfold runLine
  rw [← ran]
  have hmap : ∀ m : Machine, (m.session.diagnostics.toList.map fun d =>
      Written.errorLine ("% " ++ d.text)) = m.reports.map fun t => .errorLine ("% " ++ t) := by
    intro m
    rw [Machine.reports, List.map_map]
    rfl
  rcases ran listing line m with ⟨text, (_ | (_ | v)) | _⟩ <;>
    simp [shown, said, cleared, hmap]

/-- The two replies differ at most in what goes to standard error. -/
structure SameEffect (on off : Reply) : Prop where
  machine : on.machine = off.machine
  succeeded : on.succeeded = off.succeeded
  output : Written.outputText on.written = Written.outputText off.written

theorem outputText_append (a b : List Written) :
    Written.outputText (a ++ b) = Written.outputText a ++ Written.outputText b := by
  rw [Written.outputText, List.map_append, String.join_append]
  rfl

theorem errorText_append (a b : List Written) :
    Written.errorText (a ++ b) = Written.errorText a ++ Written.errorText b := by
  rw [Written.errorText, List.map_append, String.join_append]
  rfl

theorem outputText_map_error (ts : List String) :
    Written.outputText (ts.map fun t => .errorLine ("% " ++ t)) = "" := by
  induction ts with
  | nil => rfl
  | cons t ts ih =>
      rw [List.map_cons, ← List.singleton_append, outputText_append, ih]
      rfl

/-- What is written of a listing goes to standard error. -/
theorem texts_of_listing (listing : String) :
    Written.outputText (if listing.isEmpty then [] else [.error listing]) = "" ∧
      Written.errorText (if listing.isEmpty then [] else [.error listing]) = listing := by
  split
  · next h =>
    rw [String.isEmpty_iff] at h
    exact ⟨rfl, h.symm⟩
  · refine ⟨rfl, ?_⟩
    show String.join [listing] = listing
    simp [String.join]

theorem runLine_effect (listing : Bool) (line : String) (m : Machine) :
    SameEffect (runLine listing line m) (shown (ran listing line m).2) ∧
      Written.errorText (runLine listing line m).written =
        (ran listing line m).1 ++ Written.errorText (shown (ran listing line m).2).written := by
  obtain ⟨ho, he⟩ := texts_of_listing (ran listing line m).1
  rw [runLine_eq]
  refine ⟨⟨rfl, rfl, ?_⟩, ?_⟩
  · rw [outputText_append, ho, String.empty_append]
  · rw [errorText_append, he]

/-! ### Expressions -/

/-- The value of a line that is an expression. -/
def valued : EStateM.Result Halt Machine Value →
    EStateM.Result Halt Machine (Except DirectiveError (Option Value))
  | .ok v m => .ok (.ok (some v)) m
  | .error h m => .error h m

theorem runLine_of_expression {line source : String} (h : Line.ofText line = .expression source)
    (m : Machine) : Machine.runLine line m = valued (Machine.evaluateSource source m) := by
  rw [Machine.runLine, h]
  show EStateM.bind _ _ m = _
  unfold EStateM.bind
  cases Machine.evaluateSource source m <;> rfl

theorem listAndRun_snd (source : String) (m : Machine) :
    (listAndRun source m).2 = valued (Machine.evaluateSource source m) := by
  rw [listAndRun, Machine.compile_apply, Machine.evaluateSource, Machine.evaluateWith_apply]
  cases (Program.compile m.settings.optimize m.session.findCommand? source).1 with
  | error e => rfl
  | ok p =>
      dsimp only
      rw [Machine.runProgram]
      cases Machine.execute (Machine.evaluate Machine.nesting) p (Machine.remarked source m) <;> rfl

/-- Evaluations that end alike are shown alike. -/
theorem shown_of_endsLike {excepted : Prop} {x y : EStateM.Result Halt Machine Value}
    (h : EndsLike excepted x y) :
    SameEffect (shown (valued y)) (shown (valued x)) ∧
      (¬excepted → (shown (valued y)).written = (shown (valued x)).written) := by
  cases h with
  | same => exact ⟨⟨rfl, rfl, rfl⟩, fun _ => rfl⟩
  | @refused e f m n hm hr =>
      have hclear : cleared n = cleared m :=
        congrArg (fun m : Machine => { m with session := { m.session with output := #[] } }) hm
      have hout : n.unreported.session.output = m.unreported.session.output :=
        congrArg (·.session.output) hm
      replace hout : n.session.output = m.session.output := hout
      refine ⟨⟨hclear, rfl, ?_⟩, fun hx => ?_⟩
      · show Written.outputText (said n) = Written.outputText (said m)
        rw [said, said, outputText_append, outputText_append, outputText_map_error,
          outputText_map_error, hout]
      · show said n = said m
        rw [said, said, hr hx, hout]

/-! ### Directives -/

/-- The line is a directive, once the white space around it is dropped. -/
def IsDirective (line : String) : Prop :=
  ∀ source, Line.ofText line ≠ .expression source

/-- The line is a core with white space around it. -/
structure Padded (lead core trail : List Char) (line : String) : Prop where
  eq : line = String.ofList (lead ++ core ++ trail)
  lead : AllSpace lead
  trail : AllSpace trail
  core : Tight core

/-- Every line is one. -/
theorem exists_padded (line : String) : ∃ lead core trail, Padded lead core trail line := by
  obtain ⟨lead, trail, hline, hl, ht⟩ := Text.exists_pad line.toList
  exact ⟨lead, _, trail, by rw [← hline, String.ofList_toList], hl, ht, Text.tight_trim _⟩

section

variable {lead core trail : List Char} {line : String} (h : Padded lead core trail line)

include h

theorem Padded.trim_eq : Text.trim line.toList = core := by
  rw [h.eq, String.toList_ofList, Text.trim_pad h.lead h.trail h.core]

theorem Padded.source_eq {source : String} (hof : Line.ofText line = .expression source) :
    source = String.ofList core := by
  rw [Line.ofText, h.trim_eq] at hof
  split at hof <;> cases hof
  rfl

theorem Padded.head_core (hd : IsDirective line) : ∃ more, core = '/' :: more := by
  unfold IsDirective at hd
  rw [Line.ofText, h.trim_eq] at hd
  split at hd
  · next hw => exact ⟨_, Text.eq_append_of_dropStart? hw⟩
  · next hw => exact ⟨_, Text.eq_append_of_dropStart? hw⟩
  · next hw => exact ⟨_, Text.eq_append_of_dropStart? hw⟩
  · exact absurd rfl (hd _)

end

/-- The complaint does not start like one about an expression; none about a directive does. -/
def Plain (e : DirectiveError) : Prop :=
  e.message.toList.head? ≠ some 'e'

theorem head?_append {a : String} {c : Char} (h : a.toList.head? = some c) (b : String) :
    (a ++ b).toList.head? = some c := by
  rw [String.toList_append, List.head?_append, h]
  rfl

theorem plain_of_ne_setting {e : DirectiveError} (h : ∀ s, e ≠ .setting s) : Plain e := by
  have hc : e.message.toList.head? = some '/' := by
    cases e with
    | noArgument => rfl
    | noValue word => exact head?_append (head?_append (a := "/set: missing value for '") rfl _) _
    | noName => rfl
    | noBody => rfl
    | macroName name =>
        exact head?_append (head?_append (a := "/def: invalid macro name '") rfl _) _
    | setting s => exact absurd rfl (h s)
  rw [Plain, hc]
  decide

/-- If this fails, it does so with such a complaint. -/
def FailsPlainly {α : Type} (x : Except DirectiveError α) : Prop :=
  ∀ e, x = .error e → Plain e

theorem FailsPlainly.ok {α : Type} (a : α) : FailsPlainly (.ok a) := fun e he => by
  cases he

theorem FailsPlainly.bind {α β : Type} {x : Except DirectiveError α}
    {f : α → Except DirectiveError β} (hx : FailsPlainly x) (hf : ∀ a, FailsPlainly (f a)) :
    FailsPlainly (x >>= f) := by
  intro e he
  cases x with
  | error d =>
      cases he
      exact hx _ rfl
  | ok a => exact hf a e he

theorem definition_failsPlainly (args : List Char) : FailsPlainly (Directive.definition args) := by
  refine fun e h => plain_of_ne_setting ?_
  rintro s rfl
  unfold Directive.definition at h
  split at h
  · cases h
  · dsimp only at h
    split at h <;> cases h

theorem setting_failsPlainly (args : List Char) : FailsPlainly (Directive.setting args) := by
  refine fun e h => plain_of_ne_setting ?_
  rintro s rfl
  unfold Directive.setting at h
  cases hw : Directive.words args with
  | nil => rw [hw] at h; cases h
  | cons first more =>
      rw [hw] at h
      cases hs : Text.splitAtFirst (· == '=') first.toList with
      | none =>
          cases more with
          | nil => rw [Directive.settingOfWords_alone hs] at h; cases h
          | cons second more =>
              by_cases hne : first = ""
              · rw [hne] at h; cases h
              · rw [Directive.settingOfWords_spaced hs hne] at h; cases h
      | some pair =>
          by_cases hne : pair.1 = []
          · simp only [Directive.settingOfWords, hs, pure_bind, hne] at h
            cases h
          · rw [Directive.settingOfWords_assigned hs hne] at h
            cases h

theorem setVariable_failsPlainly (s : Session) (name value : String) :
    FailsPlainly (s.setVariable name value) := by
  intro e h
  unfold Session.setVariable at h
  split at h
  · next hn =>
    subst hn
    unfold Settings.number at h
    split at h
    · cases h
    · next he =>
      split at he <;> cases he
      cases h
      have hc : (DirectiveError.setting (.number "sigfigs" value)).message.toList.head? =
          some 's' :=
        head?_append (head?_append (head?_append (a := "sigfigs") rfl _) _) _
      rw [Plain, hc]
      decide
  · cases h

/-- What a directive comes to: a change of the session, or a complaint about it. -/
theorem runLine_of_isDirective {line : String} (h : IsDirective line) (m : Machine) :
    (∃ n, Machine.runLine line m = .ok (.ok none) n) ∨
      ∃ e, Machine.runLine line m = .ok (.error e) m ∧ Plain e := by
  have hdirected : ∀ change : Session → Except DirectiveError Session,
      FailsPlainly (change m.session) →
      (∃ n, Machine.directed change m = .ok (.ok none) n) ∨
        ∃ e, Machine.directed change m = .ok (.error e) m ∧ Plain e := by
    intro change hp
    unfold Machine.directed
    cases hc : change m.session with
    | ok s => exact .inl ⟨_, rfl⟩
    | error e => exact .inr ⟨e, rfl, hp e hc⟩
  cases hl : Line.ofText line with
  | define args =>
      rw [Machine.runLine, hl]
      exact hdirected _ (.bind (definition_failsPlainly args) fun r => .ok _)
  | setGlobal args =>
      rw [Machine.runLine, hl]
      exact hdirected _ (.bind (setting_failsPlainly args) fun r =>
        setVariable_failsPlainly m.session r.1 r.2)
  | setLocal args =>
      rw [Machine.runLine, hl]
      exact hdirected _ (.bind (setting_failsPlainly args) fun r => .ok _)
  | expression source => exact absurd hl (h source)

/-! ### Sources that are refused at their start -/

theorem evaluateSource_of_startsNone {source : String} {ch : Char} (h : Grammar.StartsNone ch)
    (hs : (Grammar.start source).rest.head? = some ch) (m : Machine) :
    ∃ e text, Machine.evaluateSource source m = .error (.failure (.compile e)) (m.refused e) ∧
      e.cause = .expected .operand (some text) := by
  obtain ⟨e, text, hparse, hcause⟩ :=
    Grammar.parse_of_startsNone h m.session.findCommand? hs
  have hcompile := Program.compile_of_parse hparse m.settings.optimize
  refine ⟨e, text, ?_, hcause⟩
  rw [Machine.evaluateSource, Machine.evaluateWith_apply, Machine.remarked, hcompile]
  rfl

theorem said_refused (m : Machine) (e : CompileError) :
    said (m.refused e) = said m ++ [.errorLine ("% " ++ ("error: " ++ e.cause.message))] := by
  rw [said, Machine.reports_refused, List.map_append, ← List.append_assoc]
  rfl

theorem errorText_errorLine (ws : List Written) (text : String) :
    Written.errorText (ws ++ [.errorLine text]) = Written.errorText ws ++ (text ++ "\n") := by
  rw [errorText_append]
  rfl

/-! ### Lines -/

/-- The listing of a line's program; a line that starts with a slash is not listed, and one that is
refused has no program. -/
def listingOf (line : String) (m : Machine) : String :=
  if line.toList.head? = some '/' then ""
  else match (Program.compile m.settings.optimize m.session.findCommand? line).1 with
    | .ok p => p.listing
    | .error _ => ""

/-- The two replies differ by the listing, which stands in front of what else goes to standard
error. -/
structure Adds (listing : String) (on off : Reply) : Prop extends SameEffect on off where
  errors : Written.errorText on.written = listing ++ Written.errorText off.written

theorem SameEffect.trans {a b c : Reply} (h : SameEffect a b) (k : SameEffect b c) :
    SameEffect a c :=
  ⟨h.machine.trans k.machine, h.succeeded.trans k.succeeded, h.output.trans k.output⟩

theorem SameEffect.symm {a b : Reply} (h : SameEffect a b) : SameEffect b a :=
  ⟨h.machine.symm, h.succeeded.symm, h.output.symm⟩

theorem ran_false (line : String) (m : Machine) :
    ran false line m = ("", Machine.runLine line m) :=
  rfl

theorem ran_of_slash {line : String} (h : line.toList.head? = some '/') (m : Machine) :
    ran true line m = ran false line m := by
  rw [ran, h]
  rfl

theorem ran_of_ne_slash {line : String} (h : line.toList.head? ≠ some '/') (m : Machine) :
    ran true line m = listAndRun line m := by
  rw [ran, if_pos]
  simpa using h

theorem ran_fst (line : String) (m : Machine) : (ran true line m).1 = listingOf line m := by
  unfold listingOf
  split
  · next h => rw [ran_of_slash h, ran_false]
  · next h =>
    rw [ran_of_ne_slash h, listAndRun, Machine.compile_apply]
    cases (Program.compile m.settings.optimize m.session.findCommand? line).1 <;> rfl

theorem sameEffect_of_shown {line : String} {m : Machine}
    (h : SameEffect (shown (ran true line m).2) (shown (ran false line m).2)) :
    SameEffect (runLine true line m) (runLine false line m) :=
  ((runLine_effect true line m).1.trans h).trans (runLine_effect false line m).1.symm

/-- What goes to standard error with a listing, and what without one. -/
theorem errorText_runLine (line : String) (m : Machine) :
    Written.errorText (runLine true line m).written =
        listingOf line m ++ Written.errorText (shown (ran true line m).2).written ∧
      Written.errorText (runLine false line m).written =
        Written.errorText (shown (ran false line m).2).written := by
  rw [(runLine_effect true line m).2, (runLine_effect false line m).2, ran_fst, ran_false,
    String.empty_append]
  exact ⟨rfl, rfl⟩

theorem adds_of_shown {line : String} {m : Machine}
    (h : SameEffect (shown (ran true line m).2) (shown (ran false line m).2))
    (hw : (shown (ran true line m).2).written = (shown (ran false line m).2).written) :
    Adds (listingOf line m) (runLine true line m) (runLine false line m) where
  toSameEffect := sameEffect_of_shown h
  errors := by
    rw [(errorText_runLine line m).1, (errorText_runLine line m).2, hw]

/-- With a listing, a line that starts like this is not read as it is without one: the white space
would have been dropped. -/
def Misread (lead : List Char) (line : String) : Prop :=
  ¬Blanks lead ∨ lead ≠ [] ∧ IsDirective line

section

variable {lead core trail : List Char} {line : String} (h : Padded lead core trail line)

include h

/-- A misread line starts neither with a slash nor, behind blanks, with an operand. -/
theorem startsNone_of_misread (hmis : Misread lead line) :
    line.toList.head? ≠ some '/' ∧
      ∃ ch, Grammar.StartsNone ch ∧ (Grammar.start line).rest.head? = some ch := by
  rw [Grammar.rest_start, h.eq, String.toList_ofList, List.append_assoc]
  have hlead : lead ≠ [] := by
    rintro rfl
    exact hmis.elim (fun hb => hb (List.forall_mem_nil _)) fun hd => hd.1 rfl
  refine ⟨?_, ?_⟩
  · obtain ⟨c, more, rfl⟩ := List.exists_cons_of_ne_nil hlead
    intro hh
    cases hh
    exact absurd (h.lead '/' List.mem_cons_self) (by decide)
  by_cases hb : Blanks lead
  · obtain ⟨more, rfl⟩ := h.head_core (hmis.resolve_left (not_not.mpr hb)).2
    rw [List.dropWhile_append_of_pos hb]
    exact ⟨'/', .inl rfl, rfl⟩
  -- the first character that is no blank is white space
  · have hne : lead.dropWhile Ascii.isBlank ≠ [] := fun hnil =>
      hb (List.dropWhile_eq_nil_iff.mp hnil)
    obtain ⟨c, more, hcons⟩ := List.exists_cons_of_ne_nil hne
    refine ⟨c, ?_, ?_⟩
    · have hspace : Text.isSpace c = true :=
        h.lead c ((List.dropWhile_suffix _).mem (hcons ▸ List.mem_cons_self))
      by_cases hv : c = '\x0b'
      · exact .inr (.inl hv)
      · exact .inr (.inr (Text.isMark_of_isSpace hspace hv))
    · rw [List.dropWhile_append, hcons]
      rfl

/-- A misread line is refused, whatever it is, and nothing comes of it. -/
theorem ran_of_misread (hmis : Misread lead line) (m : Machine) :
    ∃ e text, (ran true line m).2 = .error (.failure (.compile e)) (m.refused e) ∧
      e.cause = .expected .operand (some text) := by
  obtain ⟨hslash, ch, hch, hstart⟩ := startsNone_of_misread h hmis
  obtain ⟨e, text, hsource, hcause⟩ := evaluateSource_of_startsNone hch hstart m
  refine ⟨e, text, ?_, hcause⟩
  rw [ran_of_ne_slash hslash, listAndRun_snd, hsource]
  rfl

/-- Between blanks, a line that is not misread is run alike, up to complaints about something that
is open at its end. -/
theorem ran_of_not_misread (hmis : ¬Misread lead line) (htrail : IsDirective line ∨ Blanks trail)
    (m : Machine) :
    SameEffect (shown (ran true line m).2) (shown (ran false line m).2) ∧
      (¬(trail ≠ [] ∧ Grammar.Unfinished m.session.findCommand? (String.ofList core)) →
        (shown (ran true line m).2).written = (shown (ran false line m).2).written) := by
  obtain ⟨hb, hnot⟩ := not_or.mp hmis
  replace hb : Blanks lead := not_not.mp hb
  by_cases hslash : line.toList.head? = some '/'
  · rw [ran_of_slash hslash]
    exact ⟨⟨rfl, rfl, rfl⟩, fun _ => rfl⟩
  -- a directive with nothing in front of it would start with the slash
  have hexpr : ¬IsDirective line := by
    intro hd
    obtain ⟨more, rfl⟩ := h.head_core hd
    obtain rfl : lead = [] := not_not.mp fun hne => hnot ⟨hne, hd⟩
    exact hslash (by rw [h.eq, String.toList_ofList]; rfl)
  have hrow : Blanks trail := htrail.resolve_left hexpr
  obtain ⟨source, hof⟩ : ∃ source, Line.ofText line = .expression source := by
    simpa [IsDirective] using hexpr
  obtain rfl := h.source_eq hof
  have hpad := Machine.evaluateWith_pad (Machine.evaluate Machine.nesting) m hb hrow core
  rw [← h.eq] at hpad
  rw [ran_of_ne_slash hslash, ran_false, listAndRun_snd, runLine_of_expression hof]
  exact shown_of_endsLike hpad

/-- A misread directive is lost: without a listing it is no failure, or it fails for a reason of
its own. -/
theorem not_adds_of_misread (hmis : Misread lead line) (hd : IsDirective line) (m : Machine) :
    ¬Adds (listingOf line m) (runLine true line m) (runLine false line m) := by
  intro hadds
  obtain ⟨e, text, hon, hcause⟩ := ran_of_misread h hmis m
  have hsuccess := ((runLine_effect true line m).1.symm.trans hadds.toSameEffect).trans
    (runLine_effect false line m).1 |>.succeeded
  have herrors := hadds.errors
  rw [(errorText_runLine line m).1, (errorText_runLine line m).2, hon, ran_false] at herrors
  rw [hon, ran_false] at hsuccess
  obtain ⟨n, hoff⟩ | ⟨f, hoff, hplain⟩ := runLine_of_isDirective hd m
  · rw [hoff] at hsuccess
    cases hsuccess
  -- behind the percent sign the one complaint starts with "error", the other does not
  · rw [hoff] at herrors
    have hleft : (shown (.error (.failure (.compile e)) (m.refused e))).written =
        said m ++ [.errorLine ("% " ++ ("error: " ++ e.cause.message))] := said_refused m e
    have hright : (shown (.ok (.error f) m)).written = said m ++ [.errorLine ("% " ++ f.message)] :=
      rfl
    rw [hleft, hright, errorText_errorLine, errorText_errorLine] at herrors
    replace herrors := congrArg String.toList herrors
    simp only [String.toList_append, List.append_assoc, List.append_cancel_left_eq] at herrors
    rw [← List.append_assoc, List.append_cancel_right_eq] at herrors
    refine hplain ?_
    rw [← herrors, List.head?_append]
    rfl

/-- **A listing is all that is added**, unless the line is misread: blanks around an expression
change nothing but complaints about what is open at its end.  A misread line is refused, and if it
is a directive that is not what comes of it without a listing. -/
theorem listing_adds_unless_misread (m : Machine) :
    (¬Misread lead line → IsDirective line ∨ Blanks trail →
      SameEffect (runLine true line m) (runLine false line m) ∧
        (¬(trail ≠ [] ∧ Grammar.Unfinished m.session.findCommand? (String.ofList core)) →
          Adds (listingOf line m) (runLine true line m) (runLine false line m))) ∧
      (Misread lead line →
        (runLine true line m).succeeded = false ∧ (runLine true line m).machine = cleared m ∧
          (IsDirective line →
            ¬Adds (listingOf line m) (runLine true line m) (runLine false line m))) := by
  refine ⟨fun hmis htrail => ?_, fun hmis => ?_⟩
  · obtain ⟨hsame, hwritten⟩ := ran_of_not_misread h hmis htrail m
    exact ⟨sameEffect_of_shown hsame, fun hx => adds_of_shown hsame (hwritten hx)⟩
  · obtain ⟨e, text, hon, -⟩ := ran_of_misread h hmis m
    have heffect := (runLine_effect true line m).1
    rw [hon] at heffect
    exact ⟨heffect.succeeded, heffect.machine, fun hd => not_adds_of_misread h hmis hd m⟩

end

/-- Both halves: the listing of a name between blanks, and a setting that is lost. -/
theorem listing_adds_unless_misread_twoLines :
    (Padded [' '] ['x'] ['\t'] " x\t" ∧
      Adds (listingOf " x\t" (machineOf {} {})) (runLine true " x\t" (machineOf {} {}))
        (runLine false " x\t" (machineOf {} {}))) ∧
    Padded [' '] "/set x=1".toList [] " /set x=1" ∧
      ¬Adds (listingOf " /set x=1" (machineOf {} {})) (runLine true " /set x=1" (machineOf {} {}))
        (runLine false " /set x=1" (machineOf {} {})) := by
  have hx : Text.trim " x\t".toList = ['x'] := by decide
  have hcore : Text.trim " /set x=1".toList = "/set x=1".toList := by decide
  have hname : Padded [' '] ['x'] ['\t'] " x\t" :=
    ⟨rfl, by simp [AllSpace, Text.isSpace], by simp [AllSpace, Text.isSpace],
      hx ▸ Text.tight_trim _⟩
  have hset : Padded [' '] "/set x=1".toList [] " /set x=1" :=
    ⟨by decide, by simp [AllSpace, Text.isSpace], List.forall_mem_nil _,
      hcore ▸ Text.tight_trim _⟩
  have hblank : Blanks [' '] := by simp [Blanks, Ascii.isBlank]
  have htab : Blanks ['\t'] := by simp [Blanks, Ascii.isBlank]
  have hexpr : ¬IsDirective " x\t" := fun hd => hd "x" (by decide)
  have hdir : IsDirective " /set x=1" := by
    have hof : Line.ofText " /set x=1" = .setGlobal "x=1".toList := by decide
    intro source h
    rw [hof] at h
    cases h
  have hparses : (Grammar.parse (machineOf {} {}).session.findCommand? "x").1.toOption.isSome :=
    by decide +kernel
  refine ⟨⟨hname, ?_⟩, hset, ?_⟩
  · refine (((listing_adds_unless_misread hname _).1 ?_ (.inr htab)).2 ?_)
    · exact not_or.mpr ⟨not_not.mpr hblank, fun hd => hexpr hd.2⟩
    · rintro ⟨-, e, he, -⟩
      rw [show String.ofList ['x'] = "x" from rfl] at he
      rw [he] at hparses
      cases hparses
  · exact ((listing_adds_unless_misread hset _).2 (.inr ⟨List.cons_ne_nil _ _, hdir⟩)).2.2 hdir

/-- A directive behind a blank: its variable is set, unless a listing is asked for. -/
theorem padded_setting_lost :
    (runLine false " /set x=1" (machineOf {} {})).succeeded = true ∧
      (runLine false " /set x=1" (machineOf {} {})).machine.session.lookup "x" = some (.text "1") ∧
      (runLine true " /set x=1" (machineOf {} {})).succeeded = false ∧
      (runLine true " /set x=1" (machineOf {} {})).machine.session.lookup "x" = none := by
  decide +kernel

/-! ### Runs -/

/-- A line that is not misread, whether a directive or between blanks. -/
def Unaffected (line : String) : Prop :=
  ∃ lead core trail, Padded lead core trail line ∧ ¬Misread lead line ∧
    (IsDirective line ∨ Blanks trail)

theorem Unaffected.sameEffect {line : String} (h : Unaffected line) (m : Machine) :
    SameEffect (runLine true line m) (runLine false line m) := by
  obtain ⟨lead, core, trail, hpad, hmis, htrail⟩ := h
  exact sameEffect_of_shown (ran_of_not_misread hpad hmis htrail m).1

/-- Lines of standard input are trimmed before they are run. -/
theorem unaffected_of_ofText {text line : String} (h : InputLine.ofText text = .line line) :
    Unaffected line := by
  have hline : line = Text.trimmed text := by
    simp only [InputLine.ofText] at h
    split at h
    · cases h
    split at h <;> cases h
    rfl
  have hnone : ∀ {p : Char → Prop}, ∀ c ∈ [], p c := List.forall_mem_nil _
  refine ⟨[], Text.trim text.toList, [], ⟨?_, hnone, hnone, Text.tight_trim _⟩,
    not_or.mpr ⟨not_not.mpr hnone, fun hd => hd.1 rfl⟩, .inr hnone⟩
  rw [hline, List.nil_append, List.append_nil]
  rfl

/-- **Listings change nothing that goes to standard output** when lines are read from standard
input. -/
theorem outputText_runInput (lines : List String) (m : Machine) :
    Written.outputText (runInput true lines m) = Written.outputText (runInput false lines m) := by
  induction lines generalizing m with
  | nil => rfl
  | cons text lines ih =>
      unfold runInput
      cases hl : InputLine.ofText text with
      | skipped => exact ih m
      | quit => rfl
      | line line =>
          have hsame := (unaffected_of_ofText hl).sameEffect m
          dsimp only
          rw [outputText_append, outputText_append, hsame.output, hsame.machine, ih]

/-- Neither do they change it, or the exit code, for expressions that are not misread. -/
theorem runExpressions_unaffected {es : List String} (h : ∀ e ∈ es, Unaffected e) (m : Machine) :
    Written.outputText (runExpressions true es m).1 =
        Written.outputText (runExpressions false es m).1 ∧
      (runExpressions true es m).2 = (runExpressions false es m).2 := by
  induction es generalizing m with
  | nil => exact ⟨rfl, rfl⟩
  | cons e es ih =>
      have hsame := (h e List.mem_cons_self).sameEffect m
      obtain ⟨hwritten, hsuccess⟩ := ih (fun d hd => h d (List.mem_cons_of_mem e hd))
        (runLine false e m).machine
      unfold runExpressions
      dsimp only
      rw [outputText_append, outputText_append, hsame.output, hsame.machine, hsame.succeeded,
        hwritten, hsuccess]
      exact ⟨rfl, rfl⟩

end ExprEngine.CommandLine
