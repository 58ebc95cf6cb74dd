import ExprEngine.Proofs.Grammar.Margins
import ExprEngine.Proofs.Number.Bytes

/-!
# Operands in front of blanks

An operand without expressions in it is read alike whether its source ends or goes on with blanks.
Scans stop at the blanks or, where something is open, run on to the end; only then do the complaints
differ.

* `Grammar.number_alike`, `Grammar.name_alike`, `Grammar.quoted_alike`: numbers, names and quoted
  texts.
* `Grammar.output_alike`, `Grammar.body_alike`: what stands behind a dollar sign.
* `Grammar.substitution_alike`, `Grammar.percentSubstitution_alike`: variables and parameters.
-/

namespace ExprEngine

namespace Grammar

variable {row : List Char} {c d : Cursor}

/-! ### Numbers and names -/

theorem isMark_of_startsNumber {ch : Char} {cs : List Char} (h : startsNumber (ch :: cs) = true) :
    Text.isMark ch = true := by
  unfold startsNumber at h
  split at h
  · next hc =>
    cases hc
    rfl
  · next hc =>
    cases hc
    exact Text.isDigit_ofMarks ch h
  · next hc => cases hc

theorem number_alike (hrow : Text.Ends row) (h : c.Longer row d)
    (hn : startsNumber c.rest = true) :
    Alike row Expr.Same (Cursor.Longer row) (number c) (number d) := by
  have hparse : Literal.parse d.rest = Literal.parse c.rest := by
    rw [h.rest]
    refine Literal.parse_append hrow c.rest ?_
    cases hc : c.rest with
    | nil => rw [hc] at hn; cases hn
    | cons ch cs =>
        rw [hc] at hn
        have hb : ¬Ascii.isBlank ch = true := fun hb => by
          cases (isMark_of_startsNumber hn).symm.trans (Text.isMark_of_isBlank hb)
        rw [List.cons_append, List.dropWhile_cons_of_neg hb, List.dropWhile_cons_of_neg hb]
        rfl
  unfold number
  rw [hparse]
  cases hp : Literal.parse c.rest with
  | error e => exact .refuse h.notes _ _ _
  | ok r => exact .ok rfl (h.advance (Literal.length_of_parse hp))

theorem name_alike (hrow : Text.Ends row) (h : c.Longer row d) (slash : Bool) :
    Alike row Expr.Same (Cursor.Longer row) (.ok (name slash c)) (.ok (name slash d)) := by
  obtain ⟨ht, hl⟩ := h.skipWhile fun ch hch => Text.isWord_ofMarks.eq_false (hrow ch hch)
  refine .ok ?_ ?_
  · show Expr.leaf _ _ = Expr.leaf _ _
    rw [ht]
  · show Cursor.Longer row (ite _ _ _) (ite _ _ _)
    rw [ht]
    split
    · exact hl.note _
    · exact hl

/-! ### Quoted texts -/

theorem quotedText_closing (q : Char) (cs : List Char) :
    quotedText q (q :: cs) = { length? := some 1 } := by
  cases cs <;> simp [quotedText]

theorem quotedText_append_of_some {q : Char} {cs : List Char} {n : Nat}
    (h : (quotedText q cs).length? = some n) (post : List Char) :
    n ≤ cs.length ∧ quotedText q (cs ++ post) = quotedText q cs := by
  fun_induction quotedText q cs generalizing n with
  | case1 => cases h
  | case2 =>
      cases h
      exact ⟨Nat.le_refl _, quotedText_closing q post⟩
  | case3 => cases h
  | case4 d rest =>
      cases h
      exact ⟨by simp, quotedText_closing q (d :: (rest ++ post))⟩
  | case5 c d rest hc he ih =>
      obtain ⟨k, hk, rfl⟩ := Option.map_eq_some_iff.mp h
      obtain ⟨hle, hq⟩ := ih hk
      refine ⟨by simpa using hle, ?_⟩
      rw [List.cons_append, List.cons_append, quotedText, if_neg hc, if_pos he, hq]
  | case6 d rest hc he =>
      rename_i ih
      obtain ⟨k, hk, rfl⟩ := Option.map_eq_some_iff.mp h
      obtain ⟨hle, hq⟩ := ih hk
      refine ⟨by simpa using hle, ?_⟩
      rw [List.cons_append] at hq
      rw [List.cons_append, List.cons_append, quotedText, if_neg hc, if_neg he, if_pos rfl, hq]
  | case7 c d rest hc he =>
      rename_i hb ih
      obtain ⟨k, hk, rfl⟩ := Option.map_eq_some_iff.mp h
      obtain ⟨hle, hq⟩ := ih hk
      refine ⟨by simpa using hle, ?_⟩
      rw [List.cons_append] at hq
      rw [List.cons_append, List.cons_append, quotedText, if_neg hc, if_neg he, if_neg hb, hq]

/-- A character that does not end the text and escapes nothing. -/
theorem quotedText_kept {q ch : Char} {cs : List Char} (hq : ch ≠ q)
    (hn : ∀ e, cs.head? = some e → e ≠ q ∧ e ≠ '\\') :
    (quotedText q (ch :: cs)).length? = (quotedText q cs).length?.map (· + 1) ∧
      (quotedText q (ch :: cs)).needless =
        (if ch = '\\' then cs.head?.toList.map leadingByte else []) ++
          (quotedText q cs).needless := by
  cases cs with
  | nil => simp [quotedText, hq]
  | cons e cs =>
      obtain ⟨he, hb⟩ := hn e rfl
      rw [quotedText, if_neg hq, if_neg fun h => h.2.elim he hb]
      split <;> exact ⟨rfl, rfl⟩

theorem head_of_blanks (hrow : Blanks row) {q : Char} (hq : Text.isMark q = true) :
    ∀ e, row.head? = some e → e ≠ q ∧ e ≠ '\\' := fun e he =>
  have hb := hrow e (List.mem_of_head? he)
  ⟨Text.ne_of_isBlank hb hq, Text.ne_of_isBlank hb rfl⟩

/-- Blanks end no quoted text. -/
theorem quotedText_blanks {q : Char} (hq : Text.isMark q = true) (hrow : Blanks row) :
    (quotedText q row).length? = none ∧ (quotedText q row).needless = [] := by
  induction row with
  | nil => exact ⟨rfl, rfl⟩
  | cons b row ih =>
      obtain ⟨hb, hrow⟩ := List.forall_mem_cons.mp hrow
      have hbq : b ≠ q := Text.ne_of_isBlank hb hq
      have hbb : b ≠ '\\' := Text.ne_of_isBlank hb rfl
      obtain ⟨hl, hn⟩ := quotedText_kept hbq (head_of_blanks hrow hq)
      obtain ⟨hl', hn'⟩ := ih hrow
      rw [hl, hn, hl', hn', if_neg hbb]
      exact ⟨rfl, rfl⟩

/-- Blanks behind an open quoted text leave it open; a backslash at its end becomes an escape. -/
theorem quotedText_append_of_none {q : Char} (hq : Text.isMark q = true) (hrow : Blanks row)
    {cs : List Char} (h : (quotedText q cs).length? = none) :
    (quotedText q (cs ++ row)).length? = none ∧
      ∃ more, (quotedText q (cs ++ row)).needless = (quotedText q cs).needless ++ more := by
  -- by the number of characters left: none, one, or more, which may be an escape of one that needs
  -- it (5), of one that does not (6), or none (7)
  fun_induction quotedText q cs with
  | case1 =>
      obtain ⟨hl, hn⟩ := quotedText_blanks hq hrow
      exact ⟨hl, [], hn⟩
  | case2 => cases h
  | case3 c hc =>
      obtain ⟨hl, hn⟩ := quotedText_kept hc (head_of_blanks hrow hq)
      obtain ⟨hl', -⟩ := quotedText_blanks hq hrow
      rw [List.singleton_append, hl, hl']
      exact ⟨rfl, _, hn⟩
  | case4 => cases h
  | case5 c d rest hc he ih =>
      obtain ⟨hl, more, hn⟩ := ih (Option.map_eq_none_iff.mp h)
      rw [List.cons_append, List.cons_append, quotedText, if_neg hc, if_pos he]
      exact ⟨congrArg (Option.map (· + 2)) hl, more, hn⟩
  | case6 d rest hc he =>
      rename_i ih
      obtain ⟨hl, more, hn⟩ := ih (Option.map_eq_none_iff.mp h)
      rw [List.cons_append] at hl hn
      rw [List.cons_append, List.cons_append, quotedText, if_neg hc, if_neg he, if_pos rfl]
      exact ⟨congrArg (Option.map (· + 1)) hl, more, congrArg (leadingByte d :: ·) hn⟩
  | case7 c d rest hc he =>
      rename_i hb ih
      obtain ⟨hl, more, hn⟩ := ih (Option.map_eq_none_iff.mp h)
      rw [List.cons_append] at hl hn
      rw [List.cons_append, List.cons_append, quotedText, if_neg hc, if_neg he, if_neg hb]
      exact ⟨congrArg (Option.map (· + 1)) hl, more, hn⟩

theorem notes_of_needless (q : Char) (needless : List Char) (c : Cursor) :
    (needless.foldl (fun c escaped => c.note (.needlessEscape q escaped)) c).notes =
      (needless.map (Note.needlessEscape q)).reverse ++ c.notes := by
  induction needless generalizing c with
  | nil => rfl
  | cons e needless ih =>
      rw [List.foldl_cons, ih, List.map_cons, List.reverse_cons, List.append_assoc]
      rfl

theorem quoted_alike (hrow : Blanks row) (h : c.Longer row d) {q : Char}
    (hq : Text.isMark q = true) (hh : c.rest.head? = some q) :
    Alike row Expr.Same (Cursor.Longer row) (quoted q c) (quoted q d) := by
  have hone := (h.advance_one hh).rest
  have hdrop : d.rest.drop 1 = c.rest.drop 1 ++ row := hone
  have hnotes := notes_of_needless q
  unfold quoted
  dsimp only
  rw [hdrop]
  cases hn : (quotedText q (c.rest.drop 1)).length? with
  | some n =>
      obtain ⟨hle, hsame⟩ := quotedText_append_of_some hn row
      have hpos : 0 < c.rest.length := List.length_pos_of_mem (List.mem_of_head? hh)
      rw [List.length_drop] at hle
      rw [hsame, hn]
      refine .ok rfl ⟨(h.advance (n := 1 + n) (by omega)).rest, ?_⟩
      show Cursor.notes _ = Cursor.notes _
      rw [hnotes, hnotes, h.notes]
  | none =>
      obtain ⟨hopen, more, hmore⟩ := quotedText_append_of_none hq hrow hn
      rw [hopen]
      by_cases hr : row = []
      · rw [hr, List.append_nil]
        refine .error (.same rfl ?_)
        show Cursor.notes _ = Cursor.notes _
        rw [hnotes, hnotes, h.notes]
      · refine .error (.unfinished (more.map (Note.needlessEscape q)).reverse hr (.quote q) ?_ ?_)
        · intro n hm
          obtain ⟨e, -, rfl⟩ := List.mem_map.mp (List.mem_reverse.mp hm)
          exact ⟨q, e, rfl⟩
        · show Cursor.notes _ = _ ++ Cursor.notes _
          rw [hnotes, hnotes, h.notes, hmore, List.map_append, List.reverse_append,
            List.append_assoc]

/-! ### Texts of macros and output of commands -/

theorem enclosedLength?_of_notMem {cs : List Char} (h : ')' ∉ cs) (depth : Nat) :
    enclosedLength? depth cs = none := by
  induction cs generalizing depth with
  | nil => rfl
  | cons ch cs ih =>
      rw [List.mem_cons, not_or] at h
      unfold enclosedLength?
      rw [if_neg (Ne.symm h.1), ih h.2]
      rfl

theorem enclosedLength?_append (h : ')' ∉ row) (depth : Nat) (cs : List Char) :
    enclosedLength? depth (cs ++ row) = enclosedLength? depth cs := by
  induction cs generalizing depth with
  | nil => exact enclosedLength?_of_notMem h depth
  | cons ch cs ih =>
      rw [List.cons_append]
      unfold enclosedLength?
      simp only [ih]

theorem enclosedLength?_lt {depth n : Nat} {cs : List Char}
    (h : enclosedLength? depth cs = some n) : n < cs.length := by
  induction cs generalizing depth n with
  | nil => cases h
  | cons ch cs ih =>
      unfold enclosedLength? at h
      split at h
      · cases depth with
        | zero =>
            cases h
            exact Nat.succ_pos _
        | succ depth =>
            obtain ⟨k, hk, rfl⟩ := Option.map_eq_some_iff.mp h
            exact Nat.succ_lt_succ (ih hk)
      · obtain ⟨k, hk, rfl⟩ := Option.map_eq_some_iff.mp h
        exact Nat.succ_lt_succ (ih hk)

theorem output_alike (hrow : Blanks row) (h : c.Longer row d) (start start' : Cursor) :
    Alike row Expr.Same (Cursor.Longer row) (output start c) (output start' d) := by
  have hparen : ')' ∉ row := fun hm => by cases hrow _ hm
  unfold output
  rw [h.rest, enclosedLength?_append hparen]
  cases hn : enclosedLength? 0 c.rest with
  | none => exact .refuse h.notes _ _ _
  | some n =>
      have hlt := enclosedLength?_lt hn
      refine .ok ?_ (h.advance hlt)
      show Expr.leaf _ _ = Expr.leaf _ _
      rw [h.textTo (h.advance (Nat.le_of_lt hlt))]

theorem isBodyName_of_isBlank {ch : Char} (h : Ascii.isBlank ch = true) (bracketed : Bool) :
    isBodyName bracketed ch = bracketed := by
  have hb : ch ≠ '}' := Text.ne_of_isBlank h rfl
  have hd : ch ≠ '$' := Text.ne_of_isBlank h rfl
  simp [isBodyName, hb, hd, h]

theorem body_alike (hrow : Blanks row) (h : c.Longer row d) (start start' : Cursor) :
    Alike row Expr.Same (Cursor.Longer row) (body start c) (body start' d) := by
  unfold body
  rcases (h.faces hrow.ends).eat? '{' rfl with ⟨hc, hd⟩ | ⟨hh, _, _, hc, hd⟩
  · obtain ⟨-, hstop⟩ := h.skipWhile (p := isBodyName false) fun ch hch =>
      isBodyName_of_isBlank (hrow ch (List.mem_of_head? hch)) false
    rw [hc, hd]
    dsimp only
    rw [h.textTo hstop]
    rcases (hstop.faces hrow.ends).eat? '$' rfl with ⟨hc, hd⟩ | ⟨hh, _, _, hc, hd⟩
    · rw [hc, hd]
      exact .ok rfl hstop
    · rw [hc, hd]
      exact .ok rfl (hstop.advance_one hh)
  · have hinside := h.advance_one hh
    have hclosing := hinside.settled_skipWhile (p := isBodyName true) fun ch hch =>
      isBodyName_of_isBlank (hrow ch hch) true
    rw [hc, hd]
    dsimp only
    rcases hclosing.faces.eat? '}' rfl with ⟨hc, hd⟩ | ⟨hh, _, _, hc, hd⟩
    · rw [hc, hd]
      exact .refuse h.notes _ _ _
    · have hne := List.ne_nil_of_mem (List.mem_of_head? hh)
      rw [hc, hd, hinside.textTo (hclosing.longer hne)]
      exact .ok rfl (hclosing.advance_one hh)

/-! ### Variables and parameters -/

theorem finish_alike (h : c.Longer row d) (start start' : Cursor) (skipped : Nat)
    {found : Subject × Bool × Nat} (hle : skipped + found.2.2 ≤ c.rest.length) :
    Alike row Eq (Cursor.Longer row) (selected.finish start c skipped found)
      (selected.finish start' d skipped found) := by
  obtain ⟨s, stray, n⟩ := found
  unfold selected.finish
  cases stray with
  | true => exact .refuse h.notes _ _ _
  | false => exact .ok rfl (h.advance hle)

theorem selected_alike (hrow : Text.Ends row) (h : c.Longer row d) (start start' : Cursor)
    (bracketed : Bool) :
    Alike row Eq (Cursor.Longer row) (selected start bracketed c)
      (selected start' bracketed d) := by
  have hone : ∀ {ch : Char} {cs : List Char} (s : Selector), c.rest = ch :: cs →
      Alike row Eq (Cursor.Longer row) (selected.finish start c 1 (.param s, false, 0))
        (selected.finish start' d 1 (.param s, false, 0)) := by
    intro ch cs s hr
    exact finish_alike h start start' 1 (by rw [hr]; exact Nat.succ_le_succ (Nat.zero_le _))
  have hsubject := fun except => (subject_marksOnly bracketed except).append hrow
  have hle := subject_length_le bracketed
  unfold selected
  rw [h.rest]
  split
  · next tail hr =>
    rw [hr]
    exact hone .count hr
  · next tail hr =>
    rw [hr, List.cons_append]
    split <;> simp_all
  · next tail hr =>
    rw [hr]
    exact hone .result hr
  · next tail hr =>
    rw [hr, List.cons_append]
    split <;> simp_all
  · next tail hr =>
    have hlen := hle true tail
    rw [hr]
    show Alike row Eq (Cursor.Longer row) _
      (selected.finish start' d 1 (subject _ true (tail ++ row)))
    rw [hsubject]
    exact finish_alike h start start' 1 (by rw [hr, List.length_cons]; omega)
  · next h₅ h₁ h₂ h₃ h₄ =>
    -- the row adds nothing to the signs in front
    have hone : ∀ {x : Char} {t : List Char}, Text.isMark x = true → c.rest ++ row = x :: t →
        ∃ r, c.rest = x :: r ∧ t = r ++ row := hrow.cons_of_append
    split
    · next hd =>
      obtain ⟨r, hr, ht⟩ := hone rfl hd
      obtain ⟨r, rfl, -⟩ := hrow.cons_of_append rfl ht.symm
      exact absurd rfl (h₁ r hr)
    · next hd =>
      obtain ⟨r, hr, -⟩ := hone rfl hd
      exact absurd rfl (h₂ r hr)
    · next hd =>
      obtain ⟨r, hr, ht⟩ := hone rfl hd
      obtain ⟨r, rfl, -⟩ := hrow.cons_of_append rfl ht.symm
      exact absurd rfl (h₃ r hr)
    · next hd =>
      obtain ⟨r, hr, -⟩ := hone rfl hd
      exact absurd rfl (h₄ r hr)
    · next hd =>
      obtain ⟨r, hr, -⟩ := hone rfl hd
      exact absurd hr (h₅ r)
    · have hlen := hle false c.rest
      rw [hsubject]
      exact finish_alike h start start' 0 (by omega)

/-- A subject and its default in braces are the same, up to the end of the source. -/
theorem withDefault_braces (hrow : Blanks row) (h : c.Longer row d) (start start' : Cursor)
    (s : Subject) :
    let p := withDefault start true s c
    let q := withDefault start' true s d
    q.next.notes = p.next.notes ∧ p.next.Faces q.next ∧
      (p.next.rest ≠ [] → Expr.Same p.value q.value ∧ p.next.Longer row q.next) ∧
      (row = [] → q.next.rest.head? = p.next.rest.head?) := by
  unfold withDefault
  rcases (h.faces hrow.ends).eat? '-' rfl with ⟨hc, hd⟩ | ⟨hh, _, _, hc, hd⟩
  · rw [hc, hd]
    refine ⟨h.notes, h.faces hrow.ends, fun _ => ⟨rfl, h⟩, fun hr => ?_⟩
    dsimp only
    rw [h.rest, hr, List.append_nil]
  · have htext := h.advance_one hh
    have hstop : Cursor.Settled row ((c.advance 1).skipWhile (· != '}'))
        ((d.advance 1).skipWhile (· != '}')) :=
      htext.settled_skipWhile fun ch hch => bne_iff_ne.mpr (Text.ne_of_isBlank (hrow ch hch) rfl)
    rw [hc, hd]
    refine ⟨h.notes, hstop.faces, fun hne => ⟨?_, hstop.longer hne⟩, fun _ => hstop.head?⟩
    show Expr.fallback _ _ _ _ _ = Expr.fallback _ _ _ _ _
    exact congrArg (Expr.fallback s · _ _ _) (htext.textTo (hstop.longer hne)).symm

theorem withDefault_bare (hrow : Blanks row) (h : c.Longer row d) (start start' : Cursor)
    (s : Subject) :
    Alike row Expr.Same (Cursor.Longer row) (.ok (withDefault start false s c))
      (.ok (withDefault start' false s d)) := by
  unfold withDefault
  rcases (h.faces hrow.ends).eat? '-' rfl with ⟨hc, hd⟩ | ⟨hh, _, _, hc, hd⟩
  · rw [hc, hd]
    exact .ok rfl h
  · have htext := h.advance_one hh
    have hstop : Cursor.Longer row ((c.advance 1).skipWhile (!Ascii.isBlank ·))
        ((d.advance 1).skipWhile (!Ascii.isBlank ·)) :=
      (htext.skipWhile fun ch hch => congrArg (!·) (hrow ch (List.mem_of_head? hch))).2
    rw [hc, hd]
    refine .ok ?_ hstop
    show Expr.fallback _ _ _ _ _ = Expr.fallback _ _ _ _ _
    exact congrArg (Expr.fallback s · _ _ _) (htext.textTo hstop).symm

theorem substitution_alike (hrow : Blanks row) (h : c.Longer row d) :
    Alike row Expr.Same (Cursor.Longer row) (substitution c) (substitution d) := by
  unfold substitution
  rcases (h.faces hrow.ends).eat? '{' rfl with ⟨hc, hd⟩ | ⟨hh, _, _, hc, hd⟩
  · rw [hc, hd]
    refine .bind (selected_alike hrow.ends h c d false) ?_
    rintro ⟨s, c', hc'⟩ ⟨_, d', hd'⟩ rfl hn
    cases withDefault_bare hrow hn c d s with
    | ok hv hnext => exact .ok hv hnext
  · rw [hc, hd]
    refine .bind (selected_alike hrow.ends (h.advance_one hh) c d true) ?_
    rintro ⟨s, c', hc'⟩ ⟨_, d', hd'⟩ rfl hn
    obtain ⟨hnotes, hfaces, hopen, hempty⟩ := withDefault_braces hrow hn c d s
    dsimp only at hnotes hfaces hopen hempty ⊢
    rcases hfaces.eat? '}' rfl with ⟨hc, hd⟩ | ⟨hh, _, _, hc, hd⟩
    · rw [hc, hd]
      refine .error ?_
      -- the complaint shows what stands in place of the brace: a blank of the row, at the end
      by_cases hpeek : (withDefault d true s d').next.rest.head? =
          (withDefault c true s c').next.rest.head?
      · exact .same (congrArg CompileCause.badSubstitution hpeek) hnotes
      · have hend : (withDefault c true s c').next.rest = [] :=
          Decidable.byContradiction fun hne => hpeek <| by
            obtain ⟨ch, cs, hcs⟩ := List.exists_cons_of_ne_nil hne
            rw [(hopen hne).2.rest, hcs]
            rfl
        have hcause : (withDefault c true s c').next.peek? = none := by
          rw [Cursor.peek?, hend]
          rfl
        refine .unfinished [] (mt hempty hpeek) ?_ (fun _ => nofun) hnotes
        show CompileCause.Unfinished (.badSubstitution _)
        rw [hcause]
        exact .brace
    · obtain ⟨hs, hl⟩ := hopen (List.ne_nil_of_mem (List.mem_of_head? hh))
      rw [hc, hd]
      exact .ok hs (hl.advance_one hh)

theorem percentSubstitution_alike (hrow : Blanks row) (h : c.Longer row d) :
    Alike row Expr.Same (Cursor.Longer row) (percentSubstitution c) (percentSubstitution d) := by
  refine .bind (substitution_alike hrow h) fun p q hs hn => ?_
  have htext := h.textTo hn
  refine .ok hs ?_
  show Cursor.Longer row (p.next.note _) (q.next.note _)
  rw [htext]
  exact hn.note _

end Grammar

end ExprEngine
