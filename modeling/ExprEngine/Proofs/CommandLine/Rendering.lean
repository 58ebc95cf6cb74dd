import ExprEngine.CommandLine.Options
import ExprEngine.Proofs.Number.Digits

/-!
# Command lines that ask for given options

Options are written as words: some letters behind a minus sign, the last of which may take a text,
behind it in the same argument or as the next argument.  However the letters are grouped and
ordered, the options come back.

* `CommandLine.Word`: what can be written, with its arguments and its effect on the options.
* `CommandLine.addArguments_word`: one word is read.
* `CommandLine.Asks`: what some words ask for, told by their contents alone.
* `CommandLine.arguments_read_back`: words that ask for some options are read as these.
-/

namespace ExprEngine.CommandLine

/-! ### Words -/

/-- A letter that takes no text. -/
inductive Flag where
  | listing
  | pedantic
  | plain
deriving DecidableEq

namespace Flag

def letter : Flag → Char
  | listing => 'd'
  | pedantic => 'p'
  | plain => 'O'

/-- The options with the flag. -/
def add (o : Options) : Flag → Options
  | listing => { o with listing := true }
  | pedantic => { o with pedantic := true }
  | plain => { o with plain := true }

/-- The flag is among the options. -/
def isIn (o : Options) : Flag → Bool
  | listing => o.listing
  | pedantic => o.pedantic
  | plain => o.plain

end Flag

/-- A letter that takes a text, with what it asks for. -/
inductive Choice where
  | expression (text : String)
  | sigfigs (n : Fin Settings.numberLimit)
  | file (path : String)
deriving DecidableEq

namespace Choice

def letter : Choice → Char
  | expression _ => 'e'
  | sigfigs _ => 's'
  | file _ => 'f'

def text : Choice → String
  | expression text => text
  | sigfigs n => String.ofList (Decimal.digits n)
  | file path => path

/-- The options with the choice. -/
def add (o : Options) : Choice → Options
  | expression text => o.withExpression text
  | sigfigs n => { o with sigfigs := some n.val }
  | file path => o.withFile path

end Choice

/-- How a word ends behind its flags.  A text in the argument of its letter is not empty.  A path
in an argument of its own does not start with a minus sign, which would make it a word. -/
inductive Ending where
  | attached (c : Choice) (nonempty : c.text.toList ≠ [])
  | separate (c : Choice) (isText : c.letter = 'f' → c.text.toList.head? ≠ some '-')
  | noFile

namespace Ending

/-- The letters behind those of the flags. -/
def letters : Ending → List Char
  | attached c _ => c.letter :: c.text.toList
  | separate c _ => [c.letter]
  | noFile => ['f']

/-- The arguments behind that of the letters. -/
def further : Ending → List String
  | separate c _ => [c.text]
  | attached _ _ | noFile => []

/-- The choice that is made. -/
def choice? : Ending → Option Choice
  | attached c _ | separate c _ => some c
  | noFile => none

/-- The options with those of the ending. -/
def add (o : Options) : Ending → Options
  | attached c _ | separate c _ => c.add o
  | noFile => { o with startup := .none }

end Ending

/-- Some letters behind a minus sign, with the text of the last. -/
structure Word where
  flags : List Flag
  ending : Option Ending
  written : flags = [] → ending.isSome

namespace Word

def letters (w : Word) : List Char :=
  w.flags.map Flag.letter ++ (w.ending.map Ending.letters).getD []

/-- The arguments that are written. -/
def arguments (w : Word) : List String :=
  String.ofList ('-' :: w.letters) :: (w.ending.map Ending.further).getD []

/-- The options with those of the word. -/
def add (o : Options) (w : Word) : Options :=
  w.ending.elim id (fun e o => e.add o) (w.flags.foldl Flag.add o)

end Word

/-! ### Reading words -/

section

variable {o : Options} {args : List String}

theorem addLetters_nil (o : Options) (args : List String) :
    o.addLetters [] args = o.addArguments args := by
  rw [Options.addLetters]

theorem addLetters_flags (o : Options) (fs : List Flag) (more : List Char) (args : List String) :
    o.addLetters (fs.map Flag.letter ++ more) args =
      (fs.foldl Flag.add o).addLetters more args := by
  induction fs generalizing o with
  | nil => rfl
  | cons f fs ih =>
      rw [List.map_cons, List.cons_append, List.foldl_cons, ← ih]
      cases f with
      | listing => exact Options.addLetters.eq_2 ..
      | pedantic => exact Options.addLetters.eq_3 ..
      | plain => exact Options.addLetters.eq_4 ..

theorem readNat?_digits {limit n : ℕ} (h : n < limit) :
    Decimal.readNat? limit (Decimal.digits n) = some n := by
  obtain ⟨c, cs, hd, hc⟩ := Decimal.digits_eq_cons n
  have hall : (Decimal.digits n).all Char.isDigit = true :=
    List.all_eq_true.mpr (Decimal.allDigits_digits n)
  have hplus : c ≠ '+' := by
    rintro rfl
    cases hc
  have hv := Decimal.value_digits n
  rw [hd] at hall hv ⊢
  simp [Decimal.readNat?, hplus, hall, hv, h]

theorem withSigfigs_digits (o : Options) (n : Fin Settings.numberLimit) :
    o.withSigfigs (Choice.sigfigs n).text = .ok ((Choice.sigfigs n).add o) := by
  rw [Options.withSigfigs, Choice.text, String.toList_ofList, readNat?_digits n.isLt]
  rfl

theorem addLetters_attached {c : Choice} (h : c.text.toList ≠ []) (o : Options)
    (args : List String) :
    o.addLetters (c.letter :: c.text.toList) args = (c.add o).addArguments args := by
  have hback : String.ofList c.text.toList = c.text := String.ofList_toList
  obtain ⟨ch, cs, hc⟩ := List.exists_cons_of_ne_nil h
  have hne : ch :: cs ≠ [] := List.cons_ne_nil ch cs
  rw [hc] at hback ⊢
  cases c with
  | expression text =>
      show o.addLetters ('e' :: ch :: cs) args = _
      rw [Options.addLetters.eq_10 o args (ch :: cs) (fun _ => hne) (fun _ _ _ => hne), hback]
      rfl
  | sigfigs n =>
      show o.addLetters ('s' :: ch :: cs) args = _
      rw [Options.addLetters.eq_13 o args (ch :: cs) (fun _ => hne) (fun _ _ _ => hne), hback,
        withSigfigs_digits]
      rfl
  | file path =>
      show o.addLetters ('f' :: ch :: cs) args = _
      rw [Options.addLetters.eq_7 o args (ch :: cs) (fun _ => hne) (fun _ _ _ => hne), hback]
      rfl

theorem addLetters_separate {c : Choice} (h : c.letter = 'f' → c.text.toList.head? ≠ some '-')
    (o : Options) (args : List String) :
    o.addLetters [c.letter] (c.text :: args) = (c.add o).addArguments args := by
  cases c with
  | expression text => exact Options.addLetters.eq_9 ..
  | sigfigs n =>
      show o.addLetters ['s'] ((Choice.sigfigs n).text :: args) = _
      rw [Options.addLetters.eq_12, withSigfigs_digits]
      rfl
  | file path =>
      show o.addLetters ['f'] (path :: args) = _
      rw [Options.addLetters.eq_6]
      exact if_neg (h rfl)

/-- What may stand behind a word: nothing, or arguments that start with a minus sign. -/
def Continues (args : List String) : Prop :=
  ∀ arg ∈ args.head?, arg.toList.head? = some '-'

/-- A letter `f` is given no text if a word or nothing follows. -/
theorem addLetters_noFile (h : Continues args) (o : Options) :
    o.addLetters ['f'] args = ({ o with startup := .none } : Options).addArguments args := by
  cases args with
  | nil => rw [Options.addLetters.eq_5, Options.addArguments]
  | cons arg args => rw [Options.addLetters.eq_6, if_pos (h arg rfl)]

theorem continues_arguments (w : Word) (args : List String) : Continues (w.arguments ++ args) := by
  rintro arg ⟨⟩
  rw [String.toList_ofList]
  rfl

theorem Ending.letters_ne_nil (e : Ending) : e.letters ≠ [] := by
  cases e <;> nofun

theorem Word.letters_ne_nil (w : Word) : w.letters ≠ [] := by
  intro h
  obtain ⟨hf, he⟩ := List.append_eq_nil_iff.mp h
  obtain ⟨e, hw⟩ := Option.isSome_iff_exists.mp (w.written (List.map_eq_nil_iff.mp hf))
  rw [hw] at he
  exact e.letters_ne_nil he

theorem addLetters_ending (e : Ending) (o : Options) (h : Continues args) :
    o.addLetters e.letters (e.further ++ args) = (e.add o).addArguments args := by
  cases e with
  | attached c nonempty => exact addLetters_attached nonempty o args
  | separate c isText => exact addLetters_separate isText o args
  | noFile => exact addLetters_noFile h o

/-- One word is read. -/
theorem addArguments_word (o : Options) (w : Word) (h : Continues args) :
    o.addArguments (w.arguments ++ args) = (w.add o).addArguments args := by
  have hletters : o.addArguments (w.arguments ++ args) =
      o.addLetters w.letters ((w.ending.map Ending.further).getD [] ++ args) := by
    obtain ⟨c, cs, hc⟩ := List.exists_cons_of_ne_nil w.letters_ne_nil
    rw [Word.arguments, List.cons_append, Options.addArguments, String.toList_ofList, hc]
    rfl
  rw [hletters, Word.letters, addLetters_flags, Word.add]
  cases w.ending with
  | none => exact addLetters_nil ..
  | some e => exact addLetters_ending e _ h

/-- The options with those of some words. -/
def addWords (o : Options) (ws : List Word) : Options :=
  ws.foldl Word.add o

/-- A row of words is read. -/
theorem addArguments_words (o : Options) (ws : List Word) :
    o.addArguments (ws.flatMap Word.arguments) = .ok (addWords o ws) := by
  induction ws generalizing o with
  | nil => rw [List.flatMap_nil, Options.addArguments, addWords, List.foldl_nil]
  | cons w ws ih =>
      have h : Continues (ws.flatMap Word.arguments) := by
        cases ws with
        | nil =>
            intro next hnext
            cases hnext
        | cons w ws => exact continues_arguments w _
      rw [List.flatMap_cons, addArguments_word o w h, ih]
      rfl

end

/-! ### What words ask for -/

namespace Choice

def expression? : Choice → Option String
  | expression text => some text
  | sigfigs _ | file _ => none

def sigfigs? : Choice → Option ℕ
  | sigfigs n => some n.val
  | expression _ | file _ => none

def startup? : Choice → Option StartupChoice
  | file path => some (.file path)
  | expression _ | sigfigs _ => none

end Choice

namespace Word

/-- The expression that the word asks for. -/
def expression? (w : Word) : Option String :=
  (w.ending.bind Ending.choice?).bind Choice.expression?

/-- The number of significant digits that the word asks for. -/
def sigfigs? (w : Word) : Option ℕ :=
  (w.ending.bind Ending.choice?).bind Choice.sigfigs?

/-- The startup file that the word asks for. -/
def startup? (w : Word) : Option StartupChoice :=
  w.ending.bind fun e => e.choice?.elim (some .none) Choice.startup?

end Word

/-- The words ask for the options: for their expressions in order, for their flags in any order,
and last of all for their number of significant digits and their startup file. -/
structure Asks (ws : List Word) (o : Options) : Prop where
  expressions : ws.filterMap Word.expression? = o.expressions
  sigfigs : (ws.filterMap Word.sigfigs?).getLast? = o.sigfigs
  startup : (ws.filterMap Word.startup?).getLast?.getD .search = o.startup
  flags : ∀ f : Flag, f.isIn o = true ↔ ∃ w ∈ ws, f ∈ w.flags

section

variable {o : Options} {ws : List Word}

theorem foldl_flags (fs : List Flag) (o : Options) :
    fs.foldl Flag.add o =
      { o with
        listing := o.listing || fs.contains .listing
        pedantic := o.pedantic || fs.contains .pedantic
        plain := o.plain || fs.contains .plain } := by
  induction fs generalizing o with
  | nil => simp
  | cons f fs ih =>
      rw [List.foldl_cons, ih]
      cases f <;> simp [Flag.add]

/-- What one word does to the options. -/
theorem Word.add_eq (o : Options) (w : Word) :
    w.add o =
      { startup := w.startup?.getD o.startup
        expressions := o.expressions ++ w.expression?.toList
        sigfigs := w.sigfigs?.or o.sigfigs
        listing := o.listing || w.flags.contains .listing
        pedantic := o.pedantic || w.flags.contains .pedantic
        plain := o.plain || w.flags.contains .plain } := by
  rw [Word.add, foldl_flags, Word.startup?, Word.expression?, Word.sigfigs?]
  cases w.ending with
  | none => simp
  | some e =>
      cases e with
      | attached c _ | separate c _ =>
          cases c <;>
            simp [Ending.add, Ending.choice?, Choice.add, Options.withExpression, Options.withFile,
              Choice.expression?, Choice.sigfigs?, Choice.startup?]
      | noFile => simp [Ending.add, Ending.choice?]

theorem filterMap_cons_eq {α β : Type} (f : α → Option β) (a : α) (as : List α) :
    (a :: as).filterMap f = (f a).toList ++ as.filterMap f := by
  rw [List.filterMap_cons]
  cases f a <;> rfl

theorem getLast?_filterMap_cons {α β : Type} (f : α → Option β) (a : α) (as : List α) :
    ((a :: as).filterMap f).getLast? = (as.filterMap f).getLast?.or (f a) := by
  rw [filterMap_cons_eq, List.getLast?_append]
  cases f a <;> rfl

/-- What some words do to the options. -/
theorem addWords_eq (o : Options) (ws : List Word) :
    addWords o ws =
      { startup := (ws.filterMap Word.startup?).getLast?.getD o.startup
        expressions := o.expressions ++ ws.filterMap Word.expression?
        sigfigs := (ws.filterMap Word.sigfigs?).getLast?.or o.sigfigs
        listing := o.listing || ws.any (·.flags.contains .listing)
        pedantic := o.pedantic || ws.any (·.flags.contains .pedantic)
        plain := o.plain || ws.any (·.flags.contains .plain) } := by
  induction ws generalizing o with
  | nil => simp [addWords]
  | cons w ws ih =>
      rw [addWords, List.foldl_cons, ← addWords, ih, Word.add_eq, getLast?_filterMap_cons,
        getLast?_filterMap_cons, filterMap_cons_eq]
      simp [Option.or_assoc, Bool.or_assoc]

/-- Words ask for the options that they make. -/
theorem asks_iff : Asks ws o ↔ addWords {} ws = o := by
  have hflag (f : Flag) :
      f.isIn (addWords {} ws) = true ↔ ∃ w ∈ ws, f ∈ w.flags := by
    rw [addWords_eq]
    cases f <;> simp [Flag.isIn]
  constructor
  · intro h
    have hisIn (f : Flag) : f.isIn (addWords {} ws) = f.isIn o :=
      Bool.eq_iff_iff.mpr ((hflag f).trans (h.flags f).symm)
    have hl := hisIn .listing
    have hp := hisIn .pedantic
    have ho := hisIn .plain
    rw [addWords_eq] at hl hp ho ⊢
    rw [h.expressions, h.sigfigs, h.startup]
    cases o
    simp_all [Flag.isIn]
  · rintro rfl
    refine ⟨?_, ?_, ?_, hflag⟩
    · rw [addWords_eq, List.nil_append]
    · rw [addWords_eq, Option.or_none]
    · rw [addWords_eq]

/-! ### Words for given options -/

theorem addWords_append (o : Options) (ws us : List Word) :
    addWords o (ws ++ us) = addWords (addWords o ws) us :=
  List.foldl_append

/-- The words that ask for one flag each. -/
def flagWords (o : Options) : List Word :=
  ([.listing, .pedantic, .plain].filter (Flag.isIn o)).map fun f => ⟨[f], none, nofun⟩

theorem addWords_flags (o : Options) :
    addWords {} (flagWords o) =
      { listing := o.listing, pedantic := o.pedantic, plain := o.plain } := by
  obtain ⟨_, _, _, pedantic, listing, plain⟩ := o
  cases pedantic <;> cases listing <;> cases plain <;> rfl

/-- A word without flags. -/
def Word.ofEnding (e : Ending) : Word :=
  ⟨[], some e, fun _ => rfl⟩

/-- The words that ask for one expression each. -/
def expressionWords (texts : List String) : List Word :=
  texts.map fun text => .ofEnding (.separate (.expression text) nofun)

theorem addWords_expressions (o : Options) (texts : List String) :
    addWords o (expressionWords texts) = { o with expressions := o.expressions ++ texts } := by
  induction texts generalizing o with
  | nil => rw [List.append_nil]; rfl
  | cons text texts ih =>
      refine (ih (o.withExpression text)).trans ?_
      rw [Options.withExpression, List.append_assoc]
      rfl

/-- The word that asks for a startup file. -/
def startupWords : StartupChoice → List Word
  | .search => []
  | .none => [.ofEnding .noFile]
  | .file path =>
    if h : path.toList.head? = some '-' then
      [.ofEnding (.attached (.file path) (List.ne_nil_of_mem (List.mem_of_head? h)))]
    else [.ofEnding (.separate (.file path) fun _ => h)]

theorem addWords_startup (ho : o.startup = .search) (c : StartupChoice) :
    addWords o (startupWords c) = { o with startup := c } := by
  cases c with
  | search =>
      cases o
      cases ho
      rfl
  | none => rfl
  | file path =>
      rw [startupWords]
      split <;> rfl

/-- Some words ask for the options. -/
theorem exists_asks (h : ∀ n ∈ o.sigfigs, n < Settings.numberLimit) : ∃ ws, Asks ws o := by
  have hsig : ∃ ws, ∀ p : Options, p.sigfigs = none →
      addWords p ws = { p with sigfigs := o.sigfigs } := by
    cases hn : o.sigfigs with
    | none => exact ⟨[], fun p hp => hp ▸ rfl⟩
    | some n => exact ⟨[.ofEnding (.separate (.sigfigs ⟨n, h n hn⟩) nofun)], fun p _ => rfl⟩
  obtain ⟨ws, hws⟩ := hsig
  refine ⟨flagWords o ++ ws ++ expressionWords o.expressions ++ startupWords o.startup, ?_⟩
  rw [asks_iff, addWords_append, addWords_append, addWords_append, addWords_flags, hws _ rfl,
    addWords_expressions, addWords_startup rfl, List.nil_append]

/-- However the options are written, they are read. -/
theorem arguments_read_back (o : Options) (h : ∀ n ∈ o.sigfigs, n < Settings.numberLimit) :
    (∃ ws, Asks ws o) ∧
      ∀ ws, Asks ws o → Options.ofArguments (ws.flatMap Word.arguments) = .ok o := by
  refine ⟨exists_asks h, fun ws hw => ?_⟩
  rw [Options.ofArguments, addArguments_words, asks_iff.mp hw]

/-- An empty expression, one that starts with a minus sign behind a flag, and no startup file. -/
theorem arguments_read_back_ofFive :
    Options.ofArguments ["-pds6", "-e", "", "-Oe-1", "-f"] =
      .ok { startup := .none, expressions := ["", "-1"], sigfigs := some 6, pedantic := true,
            listing := true, plain := true } := by
  refine (arguments_read_back _ ?_).2
    [⟨[.pedantic, .listing], some (.attached (.sigfigs 6) (by decide)), nofun⟩,
      .ofEnding (.separate (.expression "") nofun),
      ⟨[.plain], some (.attached (.expression "-1") (by decide)), nofun⟩, .ofEnding .noFile] ?_
  · decide
  · exact asks_iff.mpr rfl

end

end ExprEngine.CommandLine
