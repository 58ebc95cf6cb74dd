import ExprEngine.Proofs.Bytewise.Agreement
import ExprEngine.Proofs.Grammar.Alone
import ExprEngine.Proofs.Number.Reading

/-!
# Words in braces

A word in braces selects a parameter or a group of the last match, or it is the name of a variable.
Behind a minus sign only numbers and the letter `L` select.

| `{0}` `{2}`  | the macro's name, a parameter         | `{-2}`  | all parameters but the first two |
| `{L}` `{L2}` | a parameter from the end              | `{-L2}` | all but the last two             |
| `{P}` `{P2}` | a group of the last match             | `{R}`   | a parameter by chance            |
| `{PL}` `{PR}`| what stands left or right of the match| `{x}`   | a variable                       |

* `Grammar.Selects`: the words that select, and what they select.
* `Grammar.subject_of_selects`, `Grammar.subject_of_variable`: the subject that a word is.
* `Grammar.subject_short`, `Grammar.subject_stray`: the words that are none.
* `Grammar.compile_braces`: the program of every word in braces, with a minus sign or without.
-/

namespace ExprEngine

open Decimal

namespace Grammar

/-- The index that the digits behind a letter stand for; without digits it is one. -/
def ordinal (ds : List Char) : Nat :=
  if ds.isEmpty then 1 else index ds

/-- What a word in braces selects, with a minus sign in front of it (`except`) or without.  A number
that is greater than the greatest index stands for that (`index`). -/
inductive Selects : (except : Bool) → List Char → Selector → Prop
  | frameName {ds : List Char} (hd : AllDigits ds) (hn : ds ≠ []) (hv : value ds = 0) :
    Selects false ds .frameName
  | nth {ds : List Char} (hd : AllDigits ds) (hv : value ds ≠ 0) :
    Selects false ds (.nth (index ds))
  | allButFirst {ds : List Char} (hd : AllDigits ds) (hv : value ds ≠ 0) :
    Selects true ds (.allButFirst (index ds))
  | fromLast {ds : List Char} (hd : AllDigits ds) :
    Selects false ('L' :: ds) (.fromLast (ordinal ds))
  | allButLast {ds : List Char} (hd : AllDigits ds) :
    Selects true ('L' :: ds) (.allButLast (ordinal ds))
  | capture {ds : List Char} (hd : AllDigits ds) :
    Selects false ('P' :: ds) (.capture (ordinal ds))
  | random : Selects false ['R'] .random
  | captureLeft : Selects false ['P', 'L'] .captureLeft
  | captureRight : Selects false ['P', 'R'] .captureRight

variable {except : Bool} {w cs ds post : List Char} {s : Selector}

theorem index_eq_zero_iff : index ds = 0 ↔ value ds = 0 := by
  rw [index, greatestIndex]
  omega

/-! ### Scanning up to a brace -/

/-- A run of characters of a class, with a character outside it behind the run. -/
theorem takeWhile_stop {p : Char → Bool} {c : Char} (hc : p c = false)
    (hp : ∀ d ∈ cs, p d = true) (post : List Char) : (cs ++ c :: post).takeWhile p = cs := by
  refine (Literal.takeWhile_run hp ?_).1
  rintro d ⟨⟩
  exact hc

/-- Where not all is of a class, there is a first character that is not. -/
theorem exists_stop {p : Char → Bool} (h : ¬∀ c ∈ cs, p c = true) :
    ∃ run c more, cs = run ++ c :: more ∧ (∀ d ∈ run, p d = true) ∧ p c = false := by
  induction cs with
  | nil => simp at h
  | cons c cs ih =>
      cases hc : p c with
      | false => exact ⟨[], c, cs, rfl, by simp, hc⟩
      | true =>
          obtain ⟨run, d, more, rfl, hr, hd⟩ := ih fun hcs => h (List.forall_mem_cons.mpr ⟨hc, hcs⟩)
          exact ⟨c :: run, d, more, rfl, List.forall_mem_cons.mpr ⟨hc, hr⟩, hd⟩

/-- A number that a brace follows does not go on. -/
theorem goesOn_of_digits (hd : AllDigits ds) (post : List Char) :
    subject.goesOn true ((ds ++ '}' :: post).takeWhile Char.isDigit) (ds ++ '}' :: post) =
      false := by
  have hb : Ascii.isWord '}' = false := by decide
  rw [takeWhile_stop (by decide) hd, subject.goesOn, List.drop_left]
  simp [hb]

/-- A number in a word that is no number goes on. -/
theorem goesOn_of_word (hw : ∀ c ∈ cs, Ascii.isWord c = true) (hd : ¬AllDigits cs)
    (post : List Char) :
    subject.goesOn true ((cs ++ '}' :: post).takeWhile Char.isDigit) (cs ++ '}' :: post) =
      true := by
  obtain ⟨run, c, more, rfl, hrun, hc⟩ := exists_stop hd
  have hword : Ascii.isWord c = true := hw c (by simp)
  rw [List.append_assoc, List.cons_append, takeWhile_stop hc hrun, subject.goesOn, List.drop_left]
  simp [hword]

/-! ### Subjects -/

/-- A word that starts with neither letter starts with no sign of a subject. -/
theorem head_of_word {c : Char} (hc : Ascii.isWord c = true) (hl : c ≠ 'L') (hp : c ≠ 'P') :
    ∀ d, (c :: cs).head? = some d → d ∉ ['*', 'L', 'P'] := by
  rintro _ ⟨⟩
  simp only [List.mem_cons, List.not_mem_nil, or_false]
  rintro (rfl | rfl | rfl)
  · cases hc
  · exact hl rfl
  · exact hp rfl

/-- What starts with a digit is a number, up to what is no digit. -/
theorem subject_of_digits (hds : cs.takeWhile Char.isDigit = ds) (hn : ds ≠ []) :
    subject true except cs =
      if value ds = 0 then (.param .frameName, except, ds.length)
      else (.param (if except then .allButFirst (index ds) else .nth (index ds)), false,
        ds.length) := by
  obtain ⟨c, more, rfl⟩ := List.exists_cons_of_ne_nil hn
  have hc : c.isDigit = true :=
    List.all_eq_true.mp List.all_takeWhile c (hds ▸ List.mem_cons_self)
  have hword : Ascii.isWord c = true := by simp [Ascii.isWord, Char.isAlphanum, hc]
  have hne : ∀ d, Char.isDigit d = false → c ≠ d := by
    rintro d hd rfl
    cases hc.symm.trans hd
  obtain ⟨rest, rfl, -⟩ := Text.cons_of_takeWhile hds
  rw [subject_other _ _ _ (head_of_word hword (hne 'L' rfl) (hne 'P' rfl)), hds]
  dsimp only
  rw [if_neg (by simp)]
  by_cases hv : value (c :: more) = 0
  · rw [index_eq_zero_iff.mpr hv, if_pos hv]
    rfl
  · obtain ⟨n, hi⟩ := Nat.exists_eq_succ_of_ne_zero (mt index_eq_zero_iff.mp hv)
    rw [if_neg hv, hi]
    rfl

/-- A word that is neither a number nor a letter and a number. -/
theorem subject_of_name (hw : ∀ c ∈ w, Ascii.isWord c = true)
    (hs : ∀ c, w.head? = some c → c.isDigit = false)
    (hl : ∀ ds, w = 'L' :: ds ∨ w = 'P' :: ds → ¬AllDigits ds) (hn : w ≠ []) :
    subject true except (w ++ '}' :: post) =
      (namedSubject (String.ofList w), except, w.length) := by
  have hname : asName except (w ++ '}' :: post) =
      (namedSubject (String.ofList w), except, w.length) := by
    rw [asName, takeWhile_stop (by decide) hw]
  obtain ⟨c, cs, rfl⟩ := List.exists_cons_of_ne_nil hn
  obtain ⟨hword, hcs⟩ := List.forall_mem_cons.mp hw
  by_cases hcl : c = 'L'
  · subst hcl
    rw [List.cons_append, subject_fromLast]
    dsimp only
    rw [goesOn_of_word hcs (hl cs (.inl rfl)), if_pos rfl]
    exact hname
  by_cases hcp : c = 'P'
  · subst hcp
    rw [List.cons_append, subject_capture]
    dsimp only
    rw [goesOn_of_word hcs (hl cs (.inr rfl)), if_pos rfl]
    exact hname
  · have hnone : ((c :: cs) ++ '}' :: post).takeWhile Char.isDigit = [] := by
      simp [hs c rfl]
    rw [List.cons_append, subject_other _ _ _ (head_of_word hword hcl hcp), ← List.cons_append,
      hnone]
    exact hname

/-- A word that selects is taken as a whole, with the minus sign in front of it. -/
theorem subject_of_selects (h : Selects except w s) (post : List Char) :
    subject true except (w ++ '}' :: post) = (.param s, false, w.length) := by
  have digits {w : List Char} (hd : AllDigits w) :
      (w ++ '}' :: post).takeWhile Char.isDigit = w :=
    takeWhile_stop (by decide) hd post
  have hne {w : List Char} (hv : value w ≠ 0) : w ≠ [] := by
    rintro rfl
    exact hv rfl
  cases h with
  | frameName hd hn hv => rw [subject_of_digits (digits hd) hn, if_pos hv]
  | nth hd hv =>
      rw [subject_of_digits (digits hd) (hne hv), if_neg hv]
      rfl
  | allButFirst hd hv =>
      rw [subject_of_digits (digits hd) (hne hv), if_neg hv]
      rfl
  | fromLast hd =>
      rw [List.cons_append, subject_fromLast]
      dsimp only
      rw [goesOn_of_digits hd, digits hd]
      rfl
  | allButLast hd =>
      rw [List.cons_append, subject_fromLast]
      dsimp only
      rw [goesOn_of_digits hd, digits hd]
      rfl
  | capture hd =>
      rw [List.cons_append, subject_capture]
      dsimp only
      rw [goesOn_of_digits hd, digits hd]
      rfl
  | random =>
      rw [subject_of_name (List.all_eq_true.mp rfl) (by rintro _ ⟨⟩; rfl) (by simp) (by simp)]
      rfl
  | captureLeft =>
      rw [subject_of_name (List.all_eq_true.mp rfl) (by rintro _ ⟨⟩; rfl) (by simp) (by simp)]
      rfl
  | captureRight =>
      rw [subject_of_name (List.all_eq_true.mp rfl) (by rintro _ ⟨⟩; rfl) (by simp) (by simp)]
      rfl

/-- A word that selects nothing and starts with no digit is a name. -/
theorem subject_of_variable (hw : ∀ c ∈ w, Ascii.isWord c = true) (hn : w ≠ [])
    (hs : ∀ c, w.head? = some c → c.isDigit = false) (h : ∀ s, ¬Selects false w s)
    (post : List Char) :
    subject true false (w ++ '}' :: post) = (.variable (String.ofList w), false, w.length) := by
  have hl : ∀ ds, w = 'L' :: ds ∨ w = 'P' :: ds → ¬AllDigits ds := by
    rintro ds (rfl | rfl) hd
    · exact h _ (.fromLast hd)
    · exact h _ (.capture hd)
  have hx : namedSubject (String.ofList w) = .variable (String.ofList w) := by
    have ne {x : List Char} {s : Selector} (hs : Selects false x s) :
        String.ofList w ≠ String.ofList x := by
      intro hwx
      obtain rfl := String.ofList_injective hwx
      exact h _ hs
    unfold namedSubject
    split
    · next hx => exact absurd hx (ne .random)
    · next hx => exact absurd hx (ne .captureLeft)
    · next hx => exact absurd hx (ne .captureRight)
    · rfl
  rw [subject_of_name hw hs hl hn, hx]

/-- A word that starts with a digit and is no number is not taken as a whole. -/
theorem subject_short (except : Bool) {c : Char} (hc : c.isDigit = true) (hd : ¬AllDigits (c :: cs))
    (post : List Char) : (subject true except (c :: cs ++ '}' :: post)).2.2 < (c :: cs).length := by
  obtain ⟨run, d, more, hcs, hrun, hstop⟩ := exists_stop hd
  have hn : run ≠ [] := by
    rintro rfl
    obtain ⟨rfl, -⟩ := List.cons.inj hcs
    cases hc.symm.trans hstop
  have htake : (c :: cs ++ '}' :: post).takeWhile Char.isDigit = run := by
    rw [hcs, List.append_assoc, List.cons_append, takeWhile_stop hstop hrun]
  have hlen : run.length < (c :: cs).length := by
    rw [hcs, List.length_append, List.length_cons]
    omega
  rw [subject_of_digits htake hn]
  split <;> exact hlen

/-- Behind a minus sign a word that selects nothing has the sign to spare, or more of the word. -/
theorem subject_stray (hw : ∀ c ∈ w, Ascii.isWord c = true) (hn : w ≠ [])
    (h : ∀ s, ¬Selects true w s) (post : List Char) :
    (subject true true (w ++ '}' :: post)).2.1 = true ∨
      (subject true true (w ++ '}' :: post)).2.2 < w.length := by
  obtain ⟨c, cs, rfl⟩ := List.exists_cons_of_ne_nil hn
  by_cases hc : c.isDigit = true
  · by_cases hd : AllDigits (c :: cs)
    · have hv : value (c :: cs) = 0 := Classical.byContradiction fun hv => h _ (.allButFirst hd hv)
      rw [subject_of_digits (takeWhile_stop (by decide) hd post) hn, if_pos hv]
      exact .inl rfl
    · exact .inr (subject_short true hc hd post)
  by_cases hp : ∃ ds, c :: cs = 'P' :: ds ∧ AllDigits ds
  · obtain ⟨ds, hds, hd⟩ := hp
    rw [hds, List.cons_append, subject_capture]
    dsimp only
    rw [goesOn_of_digits hd]
    exact .inl rfl
  · have hl : ∀ ds, c :: cs = 'L' :: ds ∨ c :: cs = 'P' :: ds → ¬AllDigits ds := by
      rintro ds (hds | hds) hd
      · rw [hds] at h
        exact h _ (.allButLast hd)
      · exact hp ⟨ds, hds, hd⟩
    rw [subject_of_name hw (by rintro _ ⟨⟩; simpa using hc) hl hn]
    exact .inl rfl

/-! ### Substitutions -/

/-- A word is read as its subject. -/
theorem selected_word {start c : Cursor} (hw : ∀ c ∈ w, Ascii.isWord c = true) (hn : w ≠ [])
    (hc : c.rest = w ++ '}' :: post) :
    selected start true c = selected.finish start c 0 (subject true false (w ++ '}' :: post)) := by
  obtain ⟨d, ds, rfl⟩ := List.exists_cons_of_ne_nil hn
  have head {x : Char} {more : List Char} (hx : Ascii.isWord x = false) : c.rest ≠ x :: more := by
    intro hr
    obtain ⟨rfl, -⟩ := List.cons.inj (hr.symm.trans hc)
    cases hx.symm.trans (hw x List.mem_cons_self)
  unfold selected
  split
  · next hr _ => exact absurd hr (head (by decide))
  · next hb => cases hb
  · next hr _ => exact absurd hr (head (by decide))
  · next hb => cases hb
  · next hr => exact absurd hr (head (by decide))
  · rw [hc]

/-- What stands behind a minus sign is read as a subject that may use the sign. -/
theorem selected_minus {start c : Cursor} (hc : c.rest = '-' :: cs) :
    selected start true c = selected.finish start c 1 (subject true true cs) := by
  obtain ⟨_, pos, notes⟩ := c
  subst hc
  rfl

/-- A word, behind a minus sign if `except` holds. -/
def signed (except : Bool) (w : List Char) : List Char :=
  if except then '-' :: w else w

theorem selected_signed {start c : Cursor} (hw : ∀ c ∈ w, Ascii.isWord c = true) (hn : w ≠ [])
    (hc : c.rest = signed except w ++ '}' :: post) :
    selected start true c =
      selected.finish start c except.toNat (subject true except (w ++ '}' :: post)) := by
  cases except with
  | false => exact selected_word hw hn hc
  | true => exact selected_minus hc

theorem length_signed (except : Bool) (w : List Char) :
    (signed except w).length = except.toNat + w.length := by
  cases except with
  | false => exact (Nat.zero_add _).symm
  | true => exact Nat.add_comm _ _

theorem drop_signed (except : Bool) (w : List Char) (n : Nat) :
    (signed except w).drop (except.toNat + n) = w.drop n := by
  cases except with
  | false => rw [Bool.toNat_false, Nat.zero_add]; rfl
  | true => rw [Bool.toNat_true, Nat.add_comm]; rfl

section

variable {c : Cursor} {x : List Char} {subject : Subject} {n : Nat}

/-- Without a minus sign behind it the subject is all. -/
theorem withDefault_of_ne {start : Cursor} {bracketed : Bool} (h : c.rest.head? ≠ some '-') :
    withDefault start bracketed subject c =
      ⟨.leaf subject.leaf (start.spanTo c), c, Nat.le_refl _⟩ := by
  rw [withDefault, Cursor.eat?_of_ne h]

/-- A subject in braces is all of them, or they are refused. -/
theorem substitution_of_selected {d : Cursor} (hb : c.rest.head? = some '{') {h}
    (hs : selected c true (c.advance 1) = .ok ⟨subject, d, h⟩) (hd : d.rest.head? ≠ some '-') :
    (d.rest.head? = some '}' ∧ ∃ p, substitution c = .ok p ∧
      p.value = .leaf subject.leaf (c.spanTo d) ∧ p.next = d.advance 1) ∨
    (d.rest.head? ≠ some '}' ∧ ∃ r, substitution c = .error r ∧ r.notes = d.notes) := by
  obtain ⟨hi, he⟩ := Cursor.eat?_of_head? hb
  rw [substitution, he]
  dsimp only
  rw [hs]
  have hw : withDefault c true subject d = ⟨.leaf subject.leaf (c.spanTo d), d, Nat.le_refl _⟩ :=
    withDefault_of_ne hd
  have hvalue : (withDefault c true subject d).value = .leaf subject.leaf (c.spanTo d) := by rw [hw]
  have hnext : (withDefault c true subject d).next = d := by rw [hw]
  simp only [bind, Except.bind]
  by_cases hc : d.rest.head? = some '}'
  · have hhead : (withDefault c true subject d).next.rest.head? = some '}' := by rw [hnext, hc]
    obtain ⟨hstop, hclose⟩ := Cursor.eat?_of_head? hhead
    rw [hclose]
    exact .inl ⟨hc, _, rfl, hvalue, congrArg (·.advance 1) hnext⟩
  · rw [Cursor.eat?_of_ne (by rwa [hnext])]
    exact .inr ⟨hc, _, rfl, congrArg Cursor.notes hnext⟩

theorem bare_of_brace (commands : Commands) (slash : Bool) (hc : c.rest = '{' :: cs) :
    bare commands slash c = substitution c := by
  have hp : c.peek? = some '{' := by rw [Cursor.peek?, hc]; rfl
  have hn : startsNumber c.rest = false := by rw [hc]; rfl
  rw [bare, hp, if_neg (by simp [hn])]
  rfl

theorem substitution_of_refused {r : Rejection} (hb : c.rest.head? = some '{')
    (hs : selected c true (c.advance 1) = .error r) : substitution c = .error r := by
  obtain ⟨hi, he⟩ := Cursor.eat?_of_head? hb
  rw [substitution, he]
  dsimp only
  rw [hs]
  rfl

end

/-! ### Programs -/

/-- The source that is a text in braces. -/
def braced (x : List Char) : String :=
  String.ofList ('{' :: (x ++ ['}']))

section

variable {x : List Char}

theorem toList_braced (x : List Char) : (braced x).toList = '{' :: (x ++ ['}']) :=
  String.toList_ofList

theorem start_braced (x : List Char) : start (braced x) = .ofString (braced x) :=
  start_eq (by rw [toList_braced]; rfl)

theorem rest_braced (x : List Char) : (start (braced x)).rest = '{' :: (x ++ ['}']) := by
  rw [start_braced]
  exact toList_braced x

theorem unary?_braced (x : List Char) : unary? (start (braced x)).rest = none := by
  rw [rest_braced]
  rfl

theorem rest_inside (x : List Char) : ((start (braced x)).advance 1).rest = x ++ ['}'] := by
  rw [Cursor.advance, rest_braced]
  rfl

/-- The place from the opening brace up to the closing one. -/
theorem spanTo_braced (hx : ∀ d ∈ x, Text.isAscii d = true) :
    (start (braced x)).spanTo (((start (braced x)).advance 1).advance x.length) =
      ⟨0, x.length + 1⟩ := by
  have hb : Text.byteSize ('{' :: x) = x.length + 1 :=
    Text.byteSize_of_ascii (List.forall_mem_cons.mpr ⟨by decide, hx⟩)
  rw [Cursor.advance_advance, Nat.add_comm, start_braced]
  show (⟨0, 0 + Text.byteSize ((braced x).toList.take (x.length + 1))⟩ : Span) = _
  rw [toList_braced, List.take_succ_cons, List.take_left, hb, Nat.zero_add]

/-- Where what is in the braces is a subject, the source compiles to it alone. -/
theorem compile_of_selected {subject : Subject} (hx : ∀ d ∈ x, Text.isAscii d = true)
    (hs : ∀ start c : Cursor, c.rest = x ++ ['}'] →
      ∃ h, selected start true c = .ok ⟨subject, c.advance x.length, h⟩)
    (optimize : Bool) (commands : Commands) :
    Program.compile optimize commands (braced x) =
      (.ok ⟨braced x, #[⟨subject.leaf.op, ⟨0, x.length + 1⟩⟩]⟩, []) := by
  have hr := rest_braced x
  have hend : (((start (braced x)).advance 1).advance x.length).rest = ['}'] :=
    Cursor.rest_advance_length (rest_inside x)
  obtain ⟨h, hs⟩ := hs (start (braced x)) _ (rest_inside x)
  obtain ⟨-, p, hp, hv, hn⟩ | ⟨hne, -⟩ :=
    substitution_of_selected (by rw [hr]; rfl) hs (by rw [hend]; decide)
  · have hparse := parse_alone (unary?_braced x) ((bare_of_brace commands false hr).trans hp)
      (by rw [hn, Cursor.advance, hend]; rfl)
    rw [hv, hn, spanTo_braced hx] at hparse
    exact Program.compile_of_parse hparse optimize
  · exact absurd (by rw [hend]; rfl) hne

/-- Where it is none, or a subject and more of a word, the source is refused. -/
theorem compile_of_refused
    (hs : ∀ start c : Cursor, c.rest = x ++ ['}'] →
      (∃ r, selected start true c = .error r ∧ r.notes = c.notes) ∨
      ∃ subject n h, selected start true c = .ok ⟨subject, c.advance n, h⟩ ∧
        n < x.length ∧ ∀ d ∈ x.drop n, Ascii.isWord d = true)
    (optimize : Bool) (commands : Commands) :
    ∃ e, Program.compile optimize commands (braced x) = (.error e, []) := by
  have hr := rest_braced x
  have hb : (start (braced x)).rest.head? = some '{' := by rw [hr]; rfl
  have refused {r : Rejection} (hs : substitution (start (braced x)) = .error r)
      (hnotes : r.notes = (start (braced x)).notes) :
      ∃ e, Program.compile optimize commands (braced x) = (.error e, []) := by
    have hparse := parse_refused (unary?_braced x) ((bare_of_brace commands false hr).trans hs)
    rw [hnotes] at hparse
    exact ⟨r.error, Program.compile_of_parse hparse optimize⟩
  obtain ⟨r, hs, hnotes⟩ | ⟨subject, n, h, hs, hn, hword⟩ :=
    hs (start (braced x)) _ (rest_inside x)
  · exact refused (substitution_of_refused hb hs) hnotes
  · obtain ⟨d, more, hd⟩ := List.exists_cons_of_ne_nil (l := x.drop n) (by simpa using hn)
    have hword : Ascii.isWord d = true := hword d (hd ▸ List.mem_cons_self)
    have hhead : (((start (braced x)).advance 1).advance n).rest.head? = some d := by
      rw [Cursor.advance, rest_inside, List.drop_append_of_le_length (Nat.le_of_lt hn), hd]
      rfl
    have hne {ch : Char} (hch : Ascii.isWord ch = false) :
        (((start (braced x)).advance 1).advance n).rest.head? ≠ some ch := by
      rw [hhead]
      rintro ⟨⟩
      cases hword.symm.trans hch
    obtain ⟨hclose, -⟩ | ⟨-, r, hr, hnotes⟩ := substitution_of_selected hb hs (hne (by decide))
    · exact absurd hclose (hne (by decide))
    · exact refused hr hnotes

end

section

variable (hw : ∀ c ∈ w, Ascii.isWord c = true) (hn : w ≠ [])

include hw hn

/-- The subject of a word that is all of the word is what the word compiles to. -/
theorem compile_of_subject (except : Bool) (found : Subject)
    (h : subject true except (w ++ ['}']) = (found, false, w.length)) (optimize : Bool)
    (commands : Commands) :
    Program.compile optimize commands (braced (signed except w)) =
      (.ok ⟨braced (signed except w),
        #[⟨found.leaf.op, ⟨0, (signed except w).length + 1⟩⟩]⟩, []) := by
  have ha : ∀ c ∈ signed except w, Text.isAscii c = true := by
    have hword : ∀ c ∈ w, Text.isAscii c = true := fun c hc => Text.isWord_ofAscii c (hw c hc)
    cases except with
    | false => exact hword
    | true => exact List.forall_mem_cons.mpr ⟨by decide, hword⟩
  refine compile_of_selected ha (fun start c hc => ?_) optimize commands
  rw [selected_signed hw hn hc, h, length_signed]
  exact ⟨_, rfl⟩

/-- A word is refused whose subject has a minus sign to spare, or not all of the word. -/
theorem compile_of_part (except : Bool)
    (h : (subject true except (w ++ ['}'])).2.1 = true ∨
      (subject true except (w ++ ['}'])).2.2 < w.length) (optimize : Bool) (commands : Commands) :
    ∃ e, Program.compile optimize commands (braced (signed except w)) = (.error e, []) := by
  refine compile_of_refused (fun start c hc => ?_) optimize commands
  rw [selected_signed hw hn hc]
  generalize subject true except (w ++ ['}']) = found at h
  obtain ⟨found, stray, n⟩ := found
  cases stray with
  | true => exact .inl ⟨_, rfl, rfl⟩
  | false =>
      obtain h | hlt := h
      · cases h
      refine .inr ⟨found, except.toNat + n, _, rfl, ?_, fun x hx => ?_⟩
      · rw [length_signed]
        exact Nat.add_lt_add_left hlt _
      · rw [drop_signed] at hx
        exact hw x (List.mem_of_mem_drop hx)

end

/-- **Words in braces.**  A word that selects something compiles to that, a word that starts with a
digit and selects nothing is refused, and every other word is a name.  With a minus sign in front of
it a word that selects nothing is refused. -/
theorem compile_braces (optimize : Bool) (commands : Commands) (w : List Char) (hn : w ≠ [])
    (hw : ∀ c ∈ w, Ascii.isWord c = true) :
    (∀ s, Selects false w s → Program.compile optimize commands (braced w) =
      (.ok ⟨braced w, #[⟨.pushParam s, ⟨0, w.length + 1⟩⟩]⟩, [])) ∧
    ((∀ s, ¬Selects false w s) → (∃ c, w.head? = some c ∧ c.isDigit = true) →
      ∃ e, Program.compile optimize commands (braced w) = (.error e, [])) ∧
    ((∀ s, ¬Selects false w s) → (∀ c, w.head? = some c → c.isDigit = false) →
      Program.compile optimize commands (braced w) =
        (.ok ⟨braced w, #[⟨.push (.name (String.ofList w)), ⟨0, w.length + 1⟩⟩]⟩, [])) ∧
    (∀ s, Selects true w s → Program.compile optimize commands (braced ('-' :: w)) =
      (.ok ⟨braced ('-' :: w), #[⟨.pushParam s, ⟨0, w.length + 2⟩⟩]⟩, [])) ∧
    ((∀ s, ¬Selects true w s) →
      ∃ e, Program.compile optimize commands (braced ('-' :: w)) = (.error e, [])) := by
  refine ⟨fun s h => ?_, fun h hs => ?_, fun h hs => ?_, fun s h => ?_, fun h => ?_⟩
  · exact compile_of_subject hw hn false (.param s) (subject_of_selects h []) optimize commands
  · have hd : ¬AllDigits w := by
      intro hd
      by_cases hv : value w = 0
      · exact h _ (.frameName hd hn hv)
      · exact h _ (.nth hd hv)
    obtain ⟨c, hc, hdigit⟩ := hs
    obtain ⟨cs, rfl⟩ := List.head?_eq_some_iff.mp hc
    exact compile_of_part hw hn false (.inr (subject_short false hdigit hd [])) optimize commands
  · exact compile_of_subject hw hn false (.variable _) (subject_of_variable hw hn hs h []) optimize
      commands
  · exact compile_of_subject hw hn true (.param s) (subject_of_selects h []) optimize commands
  · exact compile_of_part hw hn true (subject_stray hw hn h []) optimize commands

/-- A letter and a number, a letter more behind them, a number with a letter behind it, and a group
behind a minus sign. -/
theorem compile_braces_two :
    Program.compile true (fun _ => none) "{L2}" =
      (.ok ⟨"{L2}", #[⟨.pushParam (.fromLast 2), ⟨0, 3⟩⟩]⟩, []) ∧
    Program.compile true (fun _ => none) "{L2x}" =
      (.ok ⟨"{L2x}", #[⟨.push (.name "L2x"), ⟨0, 4⟩⟩]⟩, []) ∧
    (∃ e, Program.compile true (fun _ => none) "{2x}" = (.error e, [])) ∧
    Program.compile true (fun _ => none) "{-L2}" =
      (.ok ⟨"{-L2}", #[⟨.pushParam (.allButLast 2), ⟨0, 4⟩⟩]⟩, []) ∧
    ∃ e, Program.compile true (fun _ => none) "{-P2}" = (.error e, []) := by
  have two : AllDigits ['2'] := List.all_eq_true.mp rfl
  obtain ⟨selects, -, -, signed, -⟩ :=
    compile_braces true (fun _ => none) ['L', '2'] nofun (List.all_eq_true.mp rfl)
  obtain ⟨-, -, name, -, -⟩ :=
    compile_braces true (fun _ => none) ['L', '2', 'x'] nofun (List.all_eq_true.mp rfl)
  obtain ⟨-, digit, -, -, -⟩ :=
    compile_braces true (fun _ => none) ['2', 'x'] nofun (List.all_eq_true.mp rfl)
  obtain ⟨-, -, -, -, stray⟩ :=
    compile_braces true (fun _ => none) ['P', '2'] nofun (List.all_eq_true.mp rfl)
  refine ⟨selects _ (.fromLast two), name ?_ ?_, digit ?_ ⟨'2', rfl, rfl⟩,
    signed _ (.allButLast two), stray ?_⟩
  · intro s h
    cases h with
    | frameName hd | nth hd | fromLast hd => cases hd 'x' (by simp)
  · rintro _ ⟨⟩
    rfl
  · intro s h
    cases h with
    | frameName hd | nth hd => cases hd 'x' (by simp)
  · intro s h
    cases h with
    | allButFirst hd => cases hd 'P' (by simp)

end Grammar

end ExprEngine
