import ExprEngine.Proofs.Bytewise.Quoted

/-!
# Operands byte by byte

The compiler of bytes reads each operand that has no expression in it as the grammar reads it, and
cuts no text but between characters: what it scans by takes all bytes outside ASCII or none of them
(`Text.Coarse`), so it stops nowhere inside a character.

* `Expr.Cuts`: all places of an expression cut the source between characters.
* `Bytewise.number_agrees`, `Bytewise.name_agrees`, `Bytewise.quoted_agrees`: literals and names.
* `Bytewise.output_agrees`, `Bytewise.body_agrees`: texts of commands and of macros.
* `Bytewise.substitution_agrees`, `Bytewise.percentSubstitution_agrees`: variables and parameters,
  with what stands for them if they have no content.
-/

namespace ExprEngine

open Grammar

mutual

/-- The places of an expression and of its parts cut the source between characters. -/
def Expr.Cuts (source : List Char) : Expr → Prop
  | .leaf _ span => span.Cuts source
  | .fallback _ _ subjectSpan headSpan textSpan =>
    subjectSpan.Cuts source ∧ headSpan.Cuts source ∧ textSpan.Cuts source
  | .unary _ e span => e.Cuts source ∧ span.Cuts source
  | .binary _ a b span | .sequence a b span | .either a b span | .both a b span
  | .orElse a b span =>
    (a.Cuts source ∧ b.Cuts source) ∧ span.Cuts source
  | .choice c a b question colon =>
    (c.Cuts source ∧ a.Cuts source ∧ b.Cuts source) ∧ question.Cuts source ∧ colon.Cuts source
  | .call e args span => (e.Cuts source ∧ args.Cuts source) ∧ span.Cuts source

/-- Those of arguments. -/
def Args.Cuts (source : List Char) : Args → Prop
  | .nil => True
  | .cons e rest => e.Cuts source ∧ rest.Cuts source

end

namespace Bytewise

variable {source : List Char} {m : Machine} {c : Cursor}

/-! ### Numbers and names -/

theorem number_agrees (hc : c.In source) (hn : startsNumber c.rest = true) :
    Agrees source m (fun e _ => e.Cuts source) (Grammar.number c) number (progress m c) := by
  unfold Grammar.number number
  refine .step rfl (.step rfl (.step (cut_rest hc) ?_))
  rw [Literal.parse_asciiOnly.bytes]
  cases hp : Literal.parse c.rest with
  | ok r =>
      obtain ⟨n, used⟩ := r
      have hl := Literal.length_of_parse ((Literal.parse_asciiOnly c.rest).trans hp)
      refine .step (advance_at (Text.isAscii_of_mem_take hl) (Literal.length_of_parse hp)) ?_
      refine .step rfl (.ok rfl (hc.advance used) ?_)
      exact hc.spanTo_cuts (hc.advance used) (by simp)
  | error e =>
      refine .refuse ?_
      obtain ⟨ch, rest, hr, ha⟩ : ∃ ch rest, c.rest = ch :: rest ∧ Text.isAscii ch = true := by
        cases hr : c.rest with
        | nil =>
            rw [hr] at hn
            cases hn
        | cons ch rest =>
            refine ⟨ch, rest, rfl, ?_⟩
            by_cases hp : ch = '.'
            · subst hp
              rfl
            · rw [hr, startsNumber.eq_2 ch rest fun _ _ h => absurd h hp] at hn
              exact Text.isDigit_ofAscii ch hn
      have hone : (c.advance 1).pos = c.pos + 1 := by
        have hb : Text.byteSize [ch] = [ch].length := Text.byteSize_of_ascii (by simpa using ha)
        simp [Cursor.advance, hr] at hb ⊢
        omega
      exact hone ▸ hc.spanTo_cuts (hc.advance 1) (by simp)

theorem name_agrees (slash : Bool) (hc : c.In source) :
    Agrees source m (fun e _ => e.Cuts source) (.ok (Grammar.name slash c)) (name slash)
      (progress m c) := by
  have hd := hc.advance (c.takeWhile Ascii.isWord).length
  have hspan := hc.spanTo_cuts hd (by simp)
  unfold Grammar.name name
  refine .step rfl (.step (skipWhile_at Text.isWord_ofAscii.coarse hc) (.step rfl
    (.step (cut_skipWhile _ hc) ?_)))
  cases slash with
  | false => exact .ok rfl hd hspan
  | true => exact .ok rfl hd hspan

/-! ### Quoted texts -/

theorem quoted_agrees {quote : Char} (ha : Text.isAscii quote = true) (hb : quote ≠ '\\')
    (hc : c.In source) (hh : c.rest.head? = some quote) :
    Agrees source m (fun e _ => e.Cuts source) (Grammar.quoted quote c) (quoted quote)
      (progress m c) := by
  have hin := hc.advance 1
  have hdrop : c.rest.drop 1 = (c.advance 1).rest := rfl
  obtain ⟨before, hs, hp⟩ := hin
  have hat := @quotedText_at quote c.pos ha hb before [] (c.advance 1).rest (m.told c.notes)
  rw [List.nil_append, ← hs, Text.byteSize_nil, Nat.add_zero, ← hp] at hat
  unfold quoted Grammar.quoted
  refine .step rfl (.step (advance_one hh ha) (.step rfl (.step (ahead_at (hc.advance 1)) ?_)))
  have hpos : ∀ n, (c.advance 1).pos + Text.byteSize ((c.advance 1).rest.take n) =
      (c.advance (1 + n)).pos := fun n => congrArg Cursor.pos (c.advance_advance 1 n)
  rw [quotedEnd, spoken_told] at hat
  rw [hdrop]
  dsimp only at hat ⊢
  cases hl : (Grammar.quotedText quote (c.advance 1).rest).length? with
  | none =>
      have hend : (c.advance 1).pos + Text.byteSize (c.advance 1).rest = c.atEnd.pos := by
        have hn := hpos (c.advance 1).rest.length
        rw [List.take_length] at hn
        rw [hn, Cursor.length_advance, Cursor.atEnd,
          Nat.add_sub_cancel' (List.length_pos_of_mem (List.mem_of_head? hh))]
      rw [hl] at hat
      dsimp only at hat
      rw [hend] at hat
      exact .failed hat (hc.spanTo_cuts hc.atEnd (by simp [Cursor.atEnd]))
  | some n =>
      rw [hl] at hat
      dsimp only at hat
      rw [hpos] at hat
      have hin := hc.advance (1 + n)
      exact .step hat (.step rfl (.ok rfl hin (hc.spanTo_cuts hin (by simp))))

/-! ### Texts of macros and output of commands -/

theorem enclosedLength?_other {ch : Char} (h₁ : ch ≠ ')') (h₂ : ch ≠ '(') (depth : Nat)
    (cs : List Char) :
    enclosedLength? depth (ch :: cs) = (enclosedLength? depth cs).map (· + 1) := by
  cases depth <;> simp [enclosedLength?, h₁, h₂]

/-- The closing parenthesis is found among the bytes where it is found among the characters. -/
theorem enclosedLength?_bytes (depth : Nat) (cs : List Char) :
    enclosedLength? depth (Text.bytes cs) =
      (enclosedLength? depth cs).map fun n => Text.byteSize (cs.take n) := by
  induction cs generalizing depth with
  | nil => rfl
  | cons c cs ih =>
      cases hc : Text.isAscii c with
      | true =>
          have hone : Text.byteSize [c] = 1 := Text.byteSize_of_ascii (by simpa using hc)
          simp only [Text.byteSize_cons, Text.byteSize_nil, Nat.add_zero] at hone
          rw [Text.bytes_cons_ascii hc]
          unfold enclosedLength?
          by_cases hp : c = ')'
          · cases depth with
            | zero => simp [hp]
            | succ depth =>
                simp only [if_pos hp, ih]
                cases enclosedLength? depth cs <;> simp [hone, Nat.add_comm]
          · simp only [if_neg hp, ih]
            cases enclosedLength? (if c = '(' then depth + 1 else depth) cs <;>
              simp [hone, Nat.add_comm]
      | false =>
          have hother : ∀ us rest, (∀ u ∈ us, Text.isAscii u = false) →
              enclosedLength? depth (us ++ rest) =
                (enclosedLength? depth rest).map (· + us.length) := by
            intro us rest hu
            induction us with
            | nil => simp
            | cons u us ih =>
                have hne : ∀ ch, Text.isAscii ch = true → u ≠ ch := by
                  rintro ch hch rfl
                  cases hch.symm.trans (hu u List.mem_cons_self)
                rw [List.cons_append, enclosedLength?_other (hne ')' rfl) (hne '(' rfl),
                  ih fun v hv => hu v (List.mem_cons_of_mem u hv), Option.map_map]
                rfl
          have hsingle : enclosedLength? depth (c :: cs) = (enclosedLength? depth cs).map (· + 1) :=
            hother [c] cs (by simpa using hc)
          rw [Text.bytes_cons, hother _ _ fun u hu => Text.isAscii_of_mem_bytes hc hu, ih, hsingle,
            Text.length_bytes]
          cases enclosedLength? depth cs <;> simp [Nat.add_comm]

theorem enclosedLength?_eq_some {depth : Nat} {cs : List Char} {n : Nat}
    (h : enclosedLength? depth cs = some n) : (cs.drop n).head? = some ')' := by
  induction cs generalizing depth n with
  | nil => cases h
  | cons c cs ih =>
      unfold enclosedLength? at h
      split at h
      · next hc =>
        cases depth with
        | zero =>
            cases h
            simp [hc]
        | succ depth =>
            obtain ⟨k, hk, rfl⟩ := Option.map_eq_some_iff.mp h
            exact ih hk
      · obtain ⟨k, hk, rfl⟩ := Option.map_eq_some_iff.mp h
        exact ih hk

theorem output_agrees {d : Cursor} (hd : d.In source) (hc : c.In source)
    (h : c.rest.length ≤ d.rest.length) :
    Agrees source m (fun e _ => e.Cuts source) (Grammar.output d c) (output d.pos)
      (progress m c) := by
  unfold Grammar.output output
  refine .step rfl (.step (ahead_at hc) ?_)
  rw [enclosedLength?_bytes]
  cases hn : enclosedLength? 0 c.rest with
  | none =>
      refine .step rfl ?_
      have hspan := hd.spanTo_cuts (hc.advance c.rest.length) (by simp)
      rw [← pos_atEnd hc]
      exact .refuse hspan
  | some n =>
      dsimp only [Option.map]
      have hclose : (c.advance n).rest.head? = some ')' := enclosedLength?_eq_some hn
      have hle : n ≤ c.rest.length := by
        refine Nat.le_of_not_lt fun hlt => ?_
        rw [Cursor.advance, List.drop_eq_nil_of_le (Nat.le_of_lt hlt)] at hclose
        cases hclose
      have hone : advance 1 source (progress m (c.advance n)) =
          .ok () (progress m ((c.advance n).advance 1)) := advance_one hclose rfl
      rw [Cursor.advance_advance] at hone
      refine .step (t := progress m (c.advance n)) rfl (.step rfl (.step (cut_advance hc hle)
        (.step hone (.step rfl ?_))))
      have hin := hc.advance (n + 1)
      rw [Cursor.textTo_advance hle]
      exact .ok rfl hin (hd.spanTo_cuts hin (by simp; omega))

theorem coarse_isBodyName (bracketed : Bool) : Text.Coarse (isBodyName bracketed) := by
  refine .of_true fun ch h => ?_
  simp only [isBodyName, Bool.and_eq_false_iff, bne_eq_false_iff_eq, Bool.or_eq_false_iff,
    Bool.not_eq_false'] at h
  rcases h with (rfl | rfl) | ⟨-, h⟩
  · rfl
  · rfl
  · exact Text.isBlank_ofAscii ch h

theorem body_agrees {d : Cursor} (hd : d.In source) (hc : c.In source)
    (h : c.rest.length ≤ d.rest.length) :
    Agrees source m (fun e _ => e.Cuts source) (Grammar.body d c) (body d.pos) (progress m c) := by
  unfold Grammar.body body
  cases he : c.eat? '{' with
  | some r =>
      obtain ⟨inside, hi⟩ := r
      obtain ⟨heat, hin, rfl, -⟩ := eat_some (m := m) hc rfl he
      have hstop := hin.advance ((c.advance 1).takeWhile (isBodyName true)).length
      refine .step heat (.step rfl (.step (skipWhile_at (coarse_isBodyName true) hin) (.step rfl
        (.step (cut_skipWhile _ hin) ?_))))
      dsimp only
      rw [Cursor.textTo_skipWhile]
      cases hb : ((c.advance 1).skipWhile (isBodyName true)).eat? '}' with
      | none =>
          have hspan := hd.spanTo_cuts hstop (by simp; omega)
          exact .step (eat_none hstop rfl hb) (.refuse_from rfl hspan)
      | some r =>
          obtain ⟨stop, hs⟩ := r
          obtain ⟨heat, hin, rfl, -⟩ := eat_some (m := m) hstop rfl hb
          have hspan := hd.spanTo_cuts hin (by simp; omega)
          exact .step heat (.step rfl (.ok rfl hin hspan))
  | none =>
      have hstop := hc.advance (c.takeWhile (isBodyName false)).length
      refine .step (eat_none hc rfl he) (.step rfl
        (.step (skipWhile_at (coarse_isBodyName false) hc) (.step rfl
          (.step (cut_skipWhile _ hc) ?_))))
      dsimp only
      rw [Cursor.textTo_skipWhile]
      cases hb : (c.skipWhile (isBodyName false)).eat? '$' with
      | none =>
          have hspan := hd.spanTo_cuts hstop (by simp; omega)
          exact .step (eat_none hstop rfl hb) (.step rfl (.ok rfl hstop hspan))
      | some r =>
          obtain ⟨stop, hs⟩ := r
          obtain ⟨heat, hin, rfl, -⟩ := eat_some (m := m) hstop rfl hb
          have hspan := hd.spanTo_cuts hin (by simp; omega)
          exact .step heat (.step rfl (.ok rfl hin hspan))

/-! ### Variables and parameters -/

theorem subject_agrees {start : Cursor} (hs : start.In source) (hc : c.In source) (skipped : Nat)
    {bracketed except : Bool} (hle : c.rest.length ≤ start.rest.length) :
    Agrees source m (fun _ _ => True)
      (selected.finish start c skipped (Grammar.subject bracketed except (c.advance skipped).rest))
      (subject start.pos bracketed except) (progress m (c.advance skipped)) := by
  have hin := hc.advance skipped
  unfold subject
  refine .step rfl (.step (ahead_at hin) ?_)
  rw [(subject_marksOnly bracketed except).asciiOnly.bytes]
  have hlen := subject_length_le bracketed except ((c.advance skipped).rest.takeWhile Text.isAscii)
  rw [(subject_marksOnly bracketed except).asciiOnly] at hlen
  rcases hsub : Grammar.subject bracketed except (c.advance skipped).rest with ⟨s, stray, n⟩
  rw [hsub] at hlen
  have hd := hin.advance n
  have hn : n ≤ (c.advance skipped).rest.length :=
    Nat.le_trans hlen (List.takeWhile_prefix _).length_le
  refine .step (advance_at (Text.isAscii_of_mem_take hlen) hn) (.step rfl
    (.step (cut_advance hin hn) ?_))
  rw [Cursor.advance_advance] at hd ⊢
  cases stray with
  | true => exact .step rfl (.refuse (hs.spanTo_cuts hd (by simp; omega)))
  | false =>
      rcases s with x | s
      · rw [subject_variable hsub]
        exact .ok rfl hd trivial
      · exact .ok rfl hd trivial

theorem selected_agrees {start : Cursor} (hs : start.In source) (hc : c.In source)
    (bracketed : Bool) (hle : c.rest.length ≤ start.rest.length) :
    Agrees source m (fun _ _ => True) (Grammar.selected start bracketed c)
      (selected start.pos bracketed) (progress m c) := by
  have hone : ∀ {ch : Char} {cs : List Char} (s : Selector), Text.isAscii ch = true →
      c.rest = ch :: cs →
      Agrees source m (fun _ _ => True) (selected.finish start c 1 (.param s, false, 0))
        (do advance 1; return Subject.param s) (progress m c) := by
    intro ch cs s ha hr
    have hh : c.rest.head? = some ch := by rw [hr]; rfl
    exact .step (advance_one hh ha) (.ok rfl (hc.advance 1) trivial)
  unfold Grammar.selected selected
  refine .step (ahead_at hc) ?_
  split
  · next tail hr =>
    rw [hr, Text.bytes_cons_ascii rfl, Text.bytes_cons_ascii rfl]
    exact hone .count rfl hr
  · next tail hr =>
    rw [hr, Text.bytes_cons_ascii rfl]
    split
    case h_2 => exact hone .count rfl hr
    all_goals simp_all
  · next tail hr =>
    rw [hr, Text.bytes_cons_ascii rfl, Text.bytes_cons_ascii rfl]
    exact hone .result rfl hr
  · next tail hr =>
    rw [hr, Text.bytes_cons_ascii rfl]
    split
    case h_4 => exact hone .result rfl hr
    all_goals simp_all
  · next tail hr =>
    have hh : c.rest.head? = some '-' := by rw [hr]; rfl
    have hrest : (c.advance 1).rest = tail := by simp [Cursor.advance, hr]
    rw [hr, Text.bytes_cons_ascii rfl, ← hrest]
    exact .step (advance_one hh rfl) (subject_agrees hs hc _ hle)
  · next h₅ h₁ h₂ h₃ h₄ =>
    -- what the bytes go on with, the characters go on with
    split
    · next hb =>
      obtain ⟨cs, hcs, hb⟩ := Text.cons_of_bytes rfl hb
      obtain ⟨cs, rfl, -⟩ := Text.cons_of_bytes rfl hb
      exact absurd rfl (h₁ _ hcs)
    · next hb =>
      obtain ⟨cs, hcs, -⟩ := Text.cons_of_bytes rfl hb
      exact absurd rfl (h₂ _ hcs)
    · next hb =>
      obtain ⟨cs, hcs, hb⟩ := Text.cons_of_bytes rfl hb
      obtain ⟨cs, rfl, -⟩ := Text.cons_of_bytes rfl hb
      exact absurd rfl (h₃ _ hcs)
    · next hb =>
      obtain ⟨cs, hcs, -⟩ := Text.cons_of_bytes rfl hb
      exact absurd rfl (h₄ _ hcs)
    · next hb =>
      obtain ⟨cs, hcs, -⟩ := Text.cons_of_bytes rfl hb
      exact absurd hcs (h₅ _)
    · exact subject_agrees hs hc 0 hle

theorem withDefault_agrees {start : Cursor} (hs : start.In source) (hc : c.In source)
    (bracketed : Bool) (s : Subject) (hle : c.rest.length ≤ start.rest.length) :
    Agrees source m (fun e _ => e.Cuts source) (.ok (Grammar.withDefault start bracketed s c))
      (withDefault start.pos bracketed s) (progress m c) := by
  have hcoarse : Text.Coarse fun ch => if bracketed then ch != '}' else !Ascii.isBlank ch := by
    refine .of_true fun ch h => ?_
    cases bracketed with
    | true =>
        simp at h
        subst h
        rfl
    | false => exact Text.isBlank_ofAscii ch (by simpa using h)
  unfold Grammar.withDefault withDefault
  refine .step rfl ?_
  cases he : c.eat? '-' with
  | none => exact .step (eat_none hc rfl he) (.ok rfl hc (hs.spanTo_cuts hc hle))
  | some r =>
      obtain ⟨d, hd⟩ := r
      obtain ⟨heat, hin, rfl, -⟩ := eat_some (m := m) hc rfl he
      refine .step heat (.step rfl (.step (skipWhile_at hcoarse hin) (.step rfl
        (.step (cut_skipWhile _ hin) ?_))))
      have hstop := hin.advance ((c.advance 1).takeWhile
        fun ch => if bracketed then ch != '}' else !Ascii.isBlank ch).length
      dsimp only
      rw [Cursor.textTo_skipWhile]
      refine .ok rfl hstop ⟨hs.spanTo_cuts hc hle, hs.spanTo_cuts hin (by simp; omega),
        hin.spanTo_cuts hstop (Cursor.length_skipWhile_le _ _)⟩

/-- Some closing brace ends right at a cursor, and stands behind the character that comes next at
another one. -/
def ClosedBy (source : List Char) (c d : Cursor) : Prop :=
  ∃ e : Cursor, e.In source ∧ e.rest.head? = some '}' ∧
    e.rest.length ≤ (c.advance 1).rest.length ∧ d = e.advance 1

theorem substitution_agrees (hc : c.In source) :
    Agrees source m
      (fun e d => e.Cuts source ∧ (c.rest.head? = some '{' → ClosedBy source c d))
      (Grammar.substitution c) substitution (progress m c) := by
  unfold Grammar.substitution substitution
  refine .step rfl ?_
  cases he : c.eat? '{' with
  | none =>
      have hopen := Cursor.head?_of_eat?_none he
      refine .step (eat_none hc rfl he) (.bind (selected_agrees hc hc false (Nat.le_refl _)) ?_)
      rintro ⟨s, d, hd⟩ hin -
      obtain ⟨hy, hin, hcuts⟩ := withDefault_agrees (m := m) hc hin false s hd
      exact .step hy (.ok rfl hin ⟨hcuts, fun hh => absurd hh hopen⟩)
  | some r =>
      obtain ⟨d, hd⟩ := r
      obtain ⟨heat, hin, rfl, -⟩ := eat_some (m := m) hc rfl he
      refine .step heat (.bind (selected_agrees hc hin true (by simp)) ?_)
      rintro ⟨s, d, hd'⟩ hd -
      obtain ⟨hy, hin, hcuts⟩ :=
        withDefault_agrees (m := m) hc hd true s (Nat.le_trans hd' (by simp))
      refine .step hy ?_
      have hle := (Grammar.withDefault c true s d).le
      dsimp only at hin hcuts hle ⊢
      cases he : (Grammar.withDefault c true s d).next.eat? '}' with
      | some r =>
          obtain ⟨stop, hs⟩ := r
          obtain ⟨heat, hstop, rfl, hclose⟩ := eat_some (m := m) hin rfl he
          exact .step heat (.ok rfl hstop ⟨hcuts, fun _ => ⟨_, hin, hclose, by omega, rfl⟩⟩)
      | none =>
          refine .step (eat_none hin rfl he) (.step rfl (.step rfl (.step (cut_rest hin) ?_)))
          exact .refuse (hc.spanTo_cuts hin (by omega))

/-- What stands between the braces can be cut out, and is the text without them. -/
theorem ClosedBy.cut_inner {d : Cursor} {s : Progress} (h : ClosedBy source c d)
    (hc : c.In source) (hh : c.rest.head? = some '{') :
    cut (c.pos + 1) (d.pos - 1) source s =
      .ok (withoutBraces (c.rest.take (c.rest.length - d.rest.length))) s := by
  obtain ⟨e, he, hclose, hle, rfl⟩ := h
  obtain ⟨cs, hcs⟩ : ∃ cs, c.rest = '{' :: cs := List.head?_eq_some_iff.mp hh
  obtain ⟨es, hes⟩ : ∃ es, e.rest = '}' :: es := List.head?_eq_some_iff.mp hclose
  have hrest : (c.advance 1).rest = cs := by rw [Cursor.advance, hcs]; rfl
  have hstart : c.pos + 1 = (c.advance 1).pos := by
    rw [Cursor.advance, hcs]
    rfl
  have hstop : (e.advance 1).pos - 1 = e.pos := by
    rw [Cursor.advance, hes]
    rfl
  have hpos : 0 < e.rest.length := List.length_pos_of_mem (List.mem_of_head? hclose)
  have hinner : withoutBraces (c.rest.take (c.rest.length - (e.advance 1).rest.length)) =
      (c.advance 1).rest.take ((c.advance 1).rest.length - e.rest.length) := by
    rw [hrest] at hle ⊢
    have hk : cs.length + 1 - (e.rest.length - 1) = cs.length - e.rest.length + 1 + 1 := by omega
    rw [Cursor.length_advance, hcs, List.length_cons, hk, List.take_succ_cons]
    show (cs.take _).dropLast = _
    rw [List.dropLast_eq_take, List.take_take, List.length_take]
    exact congrArg (cs.take ·) (by omega)
  rw [hstart, hstop, hinner]
  exact cut_at (hc.advance 1) he hle

theorem withoutBraces_of_ne {cs : List Char} (h : cs.head? ≠ some '{') : withoutBraces cs = cs := by
  unfold withoutBraces
  split
  · next rest => exact absurd rfl h
  · rfl

theorem percentSubstitution_agrees (hc : c.In source) :
    Agrees source m (fun e _ => e.Cuts source) (Grammar.percentSubstitution c) percentSubstitution
      (progress m c) := by
  unfold Grammar.percentSubstitution percentSubstitution
  refine .step rfl (.step (peek?_at hc) (.bind (substitution_agrees hc) ?_))
  rintro p hin ⟨hcuts, hclosed⟩
  have hwritten : (c.textTo p.next).toList =
      c.rest.take (c.rest.length - p.next.rest.length) := String.toList_ofList
  refine .step rfl (.step (cut_at hc hin p.le) ?_)
  by_cases hh : c.rest.head? = some '{'
  · rw [if_pos (beq_iff_eq.mpr ((head?_bytes rfl _).mpr hh))]
    refine .step ((hclosed hh).cut_inner hc hh) (.step rfl (.ok ?_ hin hcuts))
    rw [hwritten]
    rfl
  · have hb : ¬((Text.bytes c.rest).head? == some '{') = true := by
      rw [beq_iff_eq, head?_bytes rfl]
      exact hh
    have hinner : withoutBraces (c.rest.take (c.rest.length - p.next.rest.length)) =
        c.rest.take (c.rest.length - p.next.rest.length) := by
      refine withoutBraces_of_ne fun ht => hh ?_
      rw [List.head?_take] at ht
      split at ht
      · cases ht
      · exact ht
    rw [if_neg hb]
    refine .step (cut_at hc hin p.le) (.step rfl (.ok ?_ hin hcuts))
    rw [hwritten, hinner]
    rfl

end Bytewise

end ExprEngine
