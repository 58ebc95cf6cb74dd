import ExprEngine.Proofs.Bytewise.Operand

/-!
# Expressions byte by byte

The functions of the compiler of bytes call each other with one call less to go each time, those of
the grammar with a shorter rest or a tighter precedence.  `Bytewise.Simulated source m n` says that
with `n` calls to go each of the former does what its counterpart does, if the rest is short enough
for `n`: a character is worth 32 calls, which is more than there are functions from one character to
the next.

* `Bytewise.Simulated`: one statement a function.
* `Bytewise.sequence_succ` and so on: with one call more, from all statements for the calls inside.
* `Bytewise.simulated`: for any number of calls, by induction.
-/

namespace ExprEngine

open Grammar

namespace Bytewise

variable {source : List Char} {m : Machine} {c d : Cursor} {n : Nat}

/-! ### Steps -/

theorem pastBlanks_at (hc : c.In source) :
    skipWhile Ascii.isBlank source (progress m c) = .ok () (progress m c.pastBlanks.val) :=
  skipWhile_at Text.isBlank_ofAscii.coarse hc

theorem commands_at (c : Cursor) :
    commands source (progress m c) = .ok m.session.findCommand? (progress m c) :=
  congrArg (EStateM.Result.ok · (progress m c)) (m.told_findCommand? c.notes)

theorem assignmentReader : Reader assignment? :=
  ⟨assignment?_marksOnly.asciiOnly, fun _ _ _ => length_of_assignment?⟩

theorem joinerReader (l : Level) : Reader l.joiner? :=
  ⟨(joiner?_marksOnly l).asciiOnly, fun _ _ _ => length_of_joiner?⟩

theorem unaryReader : Reader unary? :=
  ⟨unary?_marksOnly.asciiOnly, fun _ _ _ => length_of_unary?⟩

/-! ### Parts of expressions -/

theorem build_cuts (j : Joiner) {a b : Expr} {span : Span} (ha : a.Cuts source) (hb : b.Cuts source)
    (hs : span.Cuts source) : (j.build a b span).Cuts source := by
  cases j <;> exact ⟨⟨ha, hb⟩, hs⟩

theorem ofList_cuts {es : List Expr} (h : ∀ e ∈ es, e.Cuts source) :
    (Args.ofList es).Cuts source := by
  induction es with
  | nil => trivial
  | cons e es ih =>
      exact ⟨h e List.mem_cons_self, ih fun e he => h e (List.mem_cons_of_mem _ he)⟩

theorem withTrailing_cuts (v : Value) :
    ∀ {e : Expr}, e.Cuts source → (e.withTrailing v).Cuts source
  | .leaf .., h | .fallback .., h | .unary .., h | .binary .., h | .call .., h => h
  | .sequence .., h | .either .., h | .both .., h | .orElse .., h =>
    ⟨⟨h.1.1, withTrailing_cuts v h.1.2⟩, h.2⟩
  | .choice .., h => ⟨⟨h.1.1, h.1.2.1, withTrailing_cuts v h.1.2.2⟩, h.2⟩

theorem resolveCallee_cuts {commands : Commands} {e e' : Expr} {callee : Callee}
    (he : e.Cuts source) (h : resolveCallee commands e = .ok (callee, e')) : e'.Cuts source := by
  unfold resolveCallee at h
  split at h
  · cases h
  split at h
  · cases h
    exact withTrailing_cuts _ he
  split at h
  · split at h <;> cases h
    exact withTrailing_cuts _ he
  · cases h
    exact he

/-! ### One step of every function -/

/-- With so many calls, what the functions of one grammar read those of the other read. -/
structure Simulated (source : List Char) (m : Machine) (n : Nat) : Prop where
  sequence : ∀ c : Cursor, c.In source → 32 * c.rest.length + 22 < n →
    Agrees source m (fun e _ => e.Cuts source) (Grammar.sequence m.session.findCommand? c)
      (sequence n) (progress m c)
  sequenceTail : ∀ (c : Cursor) (e : Expr), c.In source → e.Cuts source →
    32 * c.rest.length + 21 < n →
    Agrees source m (fun e _ => e.Cuts source) (Grammar.sequenceTail m.session.findCommand? e c)
      (sequenceTail n e) (progress m c)
  assignment : ∀ c : Cursor, c.In source → 32 * c.rest.length + 20 < n →
    Agrees source m (fun e _ => e.Cuts source) (Grammar.assignment m.session.findCommand? c)
      (assignment n) (progress m c)
  conditional : ∀ c : Cursor, c.In source → 32 * c.rest.length + 19 < n →
    Agrees source m (fun e _ => e.Cuts source) (Grammar.conditional m.session.findCommand? c)
      (conditional n) (progress m c)
  chain : ∀ (c : Cursor) (l : Level), c.In source → 32 * c.rest.length + 3 * l.rank + 5 < n →
    Agrees source m (fun e _ => e.Cuts source) (Grammar.chain m.session.findCommand? l c)
      (chain n l) (progress m c)
  chainTail : ∀ (c : Cursor) (l : Level) (e : Expr), c.In source → e.Cuts source →
    32 * c.rest.length + 3 * l.rank + 4 < n →
    Agrees source m (fun e _ => e.Cuts source) (Grammar.chainTail m.session.findCommand? l e c)
      (chainTail n l e) (progress m c)
  operand : ∀ (c : Cursor) (l : Level) (slash : Bool), c.In source →
    32 * c.rest.length + 3 * l.rank + 3 < n →
    Agrees source m (fun e _ => e.Cuts source) (Grammar.operand m.session.findCommand? l slash c)
      (operand n l slash) (progress m c)
  unary : ∀ (c : Cursor) (slash : Bool), c.In source → 32 * c.rest.length + 2 < n →
    Agrees source m (fun e _ => e.Cuts source) (Grammar.unary m.session.findCommand? slash c)
      (unary n slash) (progress m c)
  arguments : ∀ c : Cursor, c.In source → 32 * c.rest.length + 22 < n →
    Agrees source m (fun es d => (∀ e ∈ es, e.Cuts source) ∧ d.peek? = some ')')
      (Grammar.arguments m.session.findCommand? c) (arguments n) (progress m c)
  argumentTail : ∀ c : Cursor, c.In source → 32 * c.rest.length + 21 < n →
    Agrees source m (fun es d => (∀ e ∈ es, e.Cuts source) ∧ d.peek? = some ')')
      (Grammar.argumentTail m.session.findCommand? c) (argumentTail n) (progress m c)
  primary : ∀ (c : Cursor) (slash : Bool), c.In source → 32 * c.rest.length + 1 < n →
    Agrees source m (fun e _ => e.Cuts source) (Grammar.primary m.session.findCommand? slash c)
      (primary n slash) (progress m c)
  bare : ∀ (c : Cursor) (slash : Bool), c.In source → 32 * c.rest.length < n →
    Agrees source m (fun e _ => e.Cuts source) (Grammar.bare m.session.findCommand? slash c)
      (bare n slash) (progress m c)

namespace Simulated

variable (ih : Simulated source m n)

include ih

theorem sequence_succ (hc : c.In source) (hn : 32 * c.rest.length + 22 < n + 1) :
    Agrees source m (fun e _ => e.Cuts source) (Grammar.sequence m.session.findCommand? c)
      (Bytewise.sequence (n + 1)) (progress m c) := by
  rw [Grammar.sequence, Bytewise.sequence]
  refine .bind (ih.assignment c hc (by omega)) ?_
  rintro ⟨e, d, hd⟩ hin he
  exact .since hd (ih.sequenceTail d e hin he (by omega))

theorem sequenceTail_succ {e : Expr} (hc : c.In source) (hcuts : e.Cuts source)
    (hn : 32 * c.rest.length + 21 < n + 1) :
    Agrees source m (fun e _ => e.Cuts source) (Grammar.sequenceTail m.session.findCommand? e c)
      (Bytewise.sequenceTail (n + 1) e) (progress m c) := by
  rw [Grammar.sequenceTail, Bytewise.sequenceTail]
  refine .step rfl ?_
  cases he : c.eat? ',' with
  | none => exact .step (eat_none hc rfl he) (.ok rfl hc hcuts)
  | some r =>
      obtain ⟨d, hd⟩ := r
      obtain ⟨heat, hin, rfl, -⟩ := eat_some (m := m) hc rfl he
      refine .step heat (.step rfl (.bind (ih.assignment _ hin (by omega)) ?_))
      rintro ⟨e, d, hd⟩ hin' he
      have hleft := And.intro (And.intro hcuts he) (hc.spanTo_cuts hin (by simp))
      exact .since _ (ih.sequenceTail d _ hin' hleft (by omega))

theorem assignment_succ (hc : c.In source) (hn : 32 * c.rest.length + 20 < n + 1) :
    Agrees source m (fun e _ => e.Cuts source) (Grammar.assignment m.session.findCommand? c)
      (Bytewise.assignment (n + 1)) (progress m c) := by
  rw [Grammar.assignment, Bytewise.assignment]
  refine .bind (ih.conditional c hc (by omega)) ?_
  rintro ⟨left, d, hd⟩ hin hleft
  refine .step rfl ?_
  dsimp only at hin hleft ⊢
  cases hr : d.read? assignment? with
  | none => exact .step (read?_none assignmentReader hin hr) (.ok rfl hin hleft)
  | some r =>
      obtain ⟨op, e, he⟩ := r
      obtain ⟨hread, hin'⟩ := read?_some (m := m) assignmentReader hin hr
      refine .step hread (.step rfl (.bind (ih.assignment e hin' (by omega)) ?_))
      rintro ⟨right, next, hn⟩ hnext hright
      exact .ok rfl hnext ⟨⟨hleft, hright⟩, hin.spanTo_cuts hin' (by omega)⟩

theorem conditional_succ (hc : c.In source) (hn : 32 * c.rest.length + 19 < n + 1) :
    Agrees source m (fun e _ => e.Cuts source) (Grammar.conditional m.session.findCommand? c)
      (Bytewise.conditional (n + 1)) (progress m c) := by
  have hrank : Level.disjunction.rank = 4 := rfl
  rw [Grammar.conditional, Bytewise.conditional]
  refine .bind (ih.chain c _ hc (by omega)) ?_
  rintro ⟨condition, d, hd⟩ hin hcond
  refine .step rfl ?_
  dsimp only at hin hcond ⊢
  cases he : d.eat? '?' with
  | none => exact .step (eat_none hin rfl he) (.ok rfl hin hcond)
  | some r =>
      obtain ⟨e, he'⟩ := r
      obtain ⟨heat, hquestion, -, -⟩ := eat_some (m := m) hin rfl he
      have hspan := hin.spanTo_cuts hquestion (by omega)
      refine .step heat (.step rfl (.step (pastBlanks_at hquestion) ?_))
      have hyes := hquestion.pastBlanks
      have hle := e.pastBlanks.property
      dsimp only
      cases ho : e.pastBlanks.val.eat? ':' with
      | some r =>
          obtain ⟨no, hno⟩ := r
          obtain ⟨heat, hstart, -, -⟩ := eat_some (m := m) hyes rfl ho
          refine .step heat (.bind (ih.conditional no hstart (by omega)) ?_)
          rintro ⟨no, next, hn⟩ hnext hcuts
          exact .ok rfl hnext ⟨⟨hcond, hcuts⟩, hspan⟩
      | none =>
          refine .step (eat_none hyes rfl ho) (.bind (ih.sequence _ hyes (by omega)) ?_)
          rintro ⟨yes, colon, hn⟩ hcolon hyescuts
          refine .step rfl ?_
          dsimp only at hcolon hyescuts ⊢
          cases hs : colon.eat? ':' with
          | none => exact .step (eat_none hcolon rfl hs) (unexpected_agrees hcolon _)
          | some r =>
              obtain ⟨no, hno⟩ := r
              obtain ⟨heat, hstart, -, -⟩ := eat_some (m := m) hcolon rfl hs
              refine .step heat (.step rfl (.bind (ih.conditional no hstart (by omega)) ?_))
              rintro ⟨no, next, hn⟩ hnext hcuts
              exact .ok rfl hnext
                ⟨⟨hcond, hyescuts, hcuts⟩, hspan, hcolon.spanTo_cuts hstart (by omega)⟩

theorem chain_succ {l : Level} (hc : c.In source)
    (hn : 32 * c.rest.length + 3 * l.rank + 5 < n + 1) :
    Agrees source m (fun e _ => e.Cuts source) (Grammar.chain m.session.findCommand? l c)
      (Bytewise.chain (n + 1) l) (progress m c) := by
  rw [Grammar.chain, Bytewise.chain]
  refine .bind (ih.operand c l false hc (by omega)) ?_
  rintro ⟨e, d, hd⟩ hin he
  exact .since hd (ih.chainTail d l e hin he (by omega))

theorem chainTail_succ {l : Level} {e : Expr} (hc : c.In source) (hcuts : e.Cuts source)
    (hn : 32 * c.rest.length + 3 * l.rank + 4 < n + 1) :
    Agrees source m (fun e _ => e.Cuts source) (Grammar.chainTail m.session.findCommand? l e c)
      (Bytewise.chainTail (n + 1) l e) (progress m c) := by
  rw [Grammar.chainTail, Bytewise.chainTail]
  refine .step rfl ?_
  cases hr : c.read? l.joiner? with
  | none => exact .step (read?_none (joinerReader l) hc hr) (.ok rfl hc hcuts)
  | some r =>
      obtain ⟨j, d, hd⟩ := r
      obtain ⟨hread, hin⟩ := read?_some (m := m) (joinerReader l) hc hr
      refine .step hread (.step rfl (.bind (ih.operand d l _ hin (by omega)) ?_))
      rintro ⟨right, next, hn⟩ hnext hright
      exact .since _ (ih.chainTail next l _ hnext
        (build_cuts j hcuts hright (hc.spanTo_cuts hin (by omega))) (by omega))

theorem operand_succ {l : Level} {slash : Bool} (hc : c.In source)
    (hn : 32 * c.rest.length + 3 * l.rank + 3 < n + 1) :
    Agrees source m (fun e _ => e.Cuts source) (Grammar.operand m.session.findCommand? l slash c)
      (Bytewise.operand (n + 1) l slash) (progress m c) := by
  rw [Grammar.operand, Bytewise.operand]
  cases ht : l.tighter? with
  | none => exact ih.unary c slash hc (by omega)
  | some k =>
      have := Level.rank_of_tighter? ht
      exact ih.chain c k hc (by omega)

theorem unary_succ {slash : Bool} (hc : c.In source) (hn : 32 * c.rest.length + 2 < n + 1) :
    Agrees source m (fun e _ => e.Cuts source) (Grammar.unary m.session.findCommand? slash c)
      (Bytewise.unary (n + 1) slash) (progress m c) := by
  have hstart := hc.pastBlanks
  have hle := c.pastBlanks.property
  rw [Grammar.unary, Bytewise.unary]
  refine .step rfl (.step (pastBlanks_at hc) (.step rfl ?_))
  dsimp only
  cases hr : c.pastBlanks.val.read? unary? with
  | some r =>
      obtain ⟨op, d, hd⟩ := r
      obtain ⟨hread, hin⟩ := read?_some (m := m) unaryReader hstart hr
      refine .step hread (.step rfl (.bind (ih.unary d false hin (by omega)) ?_))
      rintro ⟨e, next, hn⟩ hnext he
      exact .ok rfl hnext ⟨he, hstart.spanTo_cuts hin (by omega)⟩
  | none =>
      refine .step (read?_none unaryReader hstart hr) (.bind (ih.primary _ _ hstart (by omega)) ?_)
      rintro ⟨e, d, hd⟩ hin hcuts
      refine .step rfl (.step (peek?_at hin) ?_)
      dsimp only at hin hcuts ⊢
      cases he : d.eat? '(' with
      | none =>
          rw [if_neg (mt (head?_bytes rfl _).mp (Cursor.head?_of_eat?_none he))]
          exact .ok rfl hin hcuts
      | some r =>
          obtain ⟨inside, hi⟩ := r
          obtain ⟨-, hinside, rfl, hh⟩ := eat_some (m := m) hin rfl he
          rw [if_pos ((head?_bytes rfl _).mpr hh)]
          refine .step (commands_at d) ?_
          cases hcallee : resolveCallee m.session.findCommand? e with
          | error cause => exact .refuse (hin.spanTo_cuts hin (Nat.le_refl _))
          | ok r =>
              obtain ⟨callee, e'⟩ := r
              refine .step (advance_one hh rfl) (.bind (ih.arguments _ hinside (by omega)) ?_)
              rintro ⟨args, close, hclose⟩ hin' ⟨hargs, hpeek⟩
              dsimp only at hin' hargs hpeek ⊢
              have hspan := hin.spanTo_cuts hin' (by simp at hclose; omega)
              cases callee.countError? args.length with
              | some cause => exact .step rfl (.refuse hspan)
              | none =>
                  have hclosed := hin'.advance 1
                  have hblank := (close.advance 1).pastBlanks.property
                  refine .step (advance_one hpeek rfl) (.step (pastBlanks_at hclosed)
                    (.step rfl (.ok rfl hclosed.pastBlanks ?_)))
                  refine ⟨⟨resolveCallee_cuts hcuts hcallee, ofList_cuts hargs⟩, ?_⟩
                  exact hin.spanTo_cuts hclosed.pastBlanks (by simp at hclose hblank; omega)

theorem arguments_succ (hc : c.In source) (hn : 32 * c.rest.length + 22 < n + 1) :
    Agrees source m (fun es d => (∀ e ∈ es, e.Cuts source) ∧ d.peek? = some ')')
      (Grammar.arguments m.session.findCommand? c) (Bytewise.arguments (n + 1)) (progress m c) := by
  have hstart := hc.pastBlanks
  have hle := c.pastBlanks.property
  rw [Grammar.arguments, Bytewise.arguments]
  refine .step (pastBlanks_at hc) (.step (peek?_at hstart) ?_)
  dsimp only
  by_cases hp : c.pastBlanks.val.peek? = some ')'
  · rw [if_pos hp, if_pos ((head?_bytes rfl _).mpr hp)]
    exact .ok rfl hstart ⟨by simp, hp⟩
  · rw [if_neg hp, if_neg (mt (head?_bytes rfl _).mp hp)]
    exact .since hle (ih.argumentTail _ hstart (by omega))

theorem argumentTail_succ (hc : c.In source) (hn : 32 * c.rest.length + 21 < n + 1) :
    Agrees source m (fun es d => (∀ e ∈ es, e.Cuts source) ∧ d.peek? = some ')')
      (Grammar.argumentTail m.session.findCommand? c) (Bytewise.argumentTail (n + 1))
      (progress m c) := by
  rw [Grammar.argumentTail, Bytewise.argumentTail]
  refine .bind (ih.assignment c hc (by omega)) ?_
  rintro ⟨arg, d, hd⟩ hin harg
  refine .step (peek?_at hin) ?_
  dsimp only at hin harg ⊢
  by_cases hp : d.peek? = some ')'
  · rw [if_pos hp, if_pos ((head?_bytes rfl _).mpr hp)]
    exact .ok rfl hin ⟨by simpa using harg, hp⟩
  · rw [if_neg hp, if_neg (mt (head?_bytes rfl _).mp hp)]
    cases he : d.eat? ',' with
    | none => exact .step (eat_none hin rfl he) (unexpected_agrees hin _)
    | some r =>
        obtain ⟨e, he'⟩ := r
        obtain ⟨heat, hnext, -, -⟩ := eat_some (m := m) hin rfl he
        refine .step heat (.bind (ih.argumentTail e hnext (by omega)) ?_)
        rintro ⟨args, close, hclose⟩ hin' ⟨hargs, hpeek⟩
        exact .ok rfl hin' ⟨by simpa using ⟨harg, hargs⟩, hpeek⟩

theorem primary_succ {slash : Bool} (hc : c.In source) (hn : 32 * c.rest.length + 1 < n + 1) :
    Agrees source m (fun e _ => e.Cuts source) (Grammar.primary m.session.findCommand? slash c)
      (Bytewise.primary (n + 1) slash) (progress m c) := by
  rw [Grammar.primary, Bytewise.primary]
  refine .bind (ih.bare c slash hc (by omega)) ?_
  rintro ⟨e, d, hd⟩ hin he
  exact .step (pastBlanks_at hin) (.ok rfl hin.pastBlanks he)

/-- What starts with a dollar sign: an expression in brackets, the output of a command line or the
text of a macro. -/
theorem bare_dollar {slash : Bool} (hc : c.In source) (hn : 32 * c.rest.length < n + 1)
    (hnumber : startsNumber c.rest = false) (hh : c.rest.head? = some '$') :
    Agrees source m (fun e _ => e.Cuts source) (Grammar.bare m.session.findCommand? slash c)
      (Bytewise.bare (n + 1) slash) (progress m c) := by
  have hp : c.peek? = some '$' := hh
  rw [Grammar.bare, Bytewise.bare, hp, hnumber]
  refine .step (ahead_at hc) ?_
  rw [startsNumber_marksOnly.asciiOnly.bytes, hnumber]
  refine .step (peek?_at hc) ?_
  rw [(head?_bytes rfl _).mpr hh]
  refine .step rfl (.step (advance_one hh rfl) ?_)
  have hin := hc.advance 1
  obtain ⟨hlt, hd⟩ := Cursor.eat?_of_head? hh
  rw [hd]
  refine .step (peek?_at hin) ?_
  dsimp only
  cases hb : (c.advance 1).eat? '[' with
  | some r =>
      obtain ⟨inside, hi⟩ := r
      obtain ⟨-, hinside, rfl, hh⟩ := eat_some (m := m) hin rfl hb
      rw [(head?_bytes rfl _).mpr hh]
      have hinside : (((c.advance 1).advance 1).note .bracketed).In source := hinside
      have hle := (((c.advance 1).advance 1).note .bracketed).pastBlanks.property
      have hlen : (((c.advance 1).advance 1).note .bracketed).rest.length =
          ((c.advance 1).advance 1).rest.length := rfl
      refine .step (t := progress m ((c.advance 1).note .bracketed)) rfl
        (.step (advance_one hh rfl) (.step (pastBlanks_at hinside)
          (.bind (ih.sequence _ hinside.pastBlanks (by omega)) ?_)))
      rintro ⟨e, close, hclose⟩ hin' hcuts
      refine .step (ahead_at hin') ?_
      dsimp only at hin' hcuts ⊢
      rw [Text.isEmpty_bytes]
      split
      · exact .step rfl (.refuse (hc.spanTo_cuts hin' (by omega)))
      · cases hs : close.eat? ']' with
        | none => exact .step (eat_none hin' rfl hs) (unexpected_agrees hin' _)
        | some r =>
            obtain ⟨stop, hstop⟩ := r
            obtain ⟨heat, hnext, -, -⟩ := eat_some (m := m) hin' rfl hs
            exact .step heat (.ok rfl hnext hcuts)
  | none =>
      cases hp : (c.advance 1).eat? '(' with
      | some r =>
          obtain ⟨inside, hi⟩ := r
          obtain ⟨-, hinside, rfl, hh⟩ := eat_some (m := m) hin rfl hp
          rw [(head?_bytes rfl _).mpr hh]
          exact .step (advance_one hh rfl)
            (.since _ (output_agrees hc hinside (by simp; omega)))
      | none =>
          refine .since _ ?_
          split
          · next hu =>
            exact absurd ((head?_bytes rfl _).mp hu) (Cursor.head?_of_eat?_none hb)
          · next hu =>
            exact absurd ((head?_bytes rfl _).mp hu) (Cursor.head?_of_eat?_none hp)
          · exact body_agrees hc hin (Nat.le_of_lt hlt)

/-- What starts with a parenthesis. -/
theorem bare_parenthesis {slash : Bool} (hc : c.In source) (hn : 32 * c.rest.length < n + 1)
    (hnumber : startsNumber c.rest = false) (hh : c.rest.head? = some '(') :
    Agrees source m (fun e _ => e.Cuts source) (Grammar.bare m.session.findCommand? slash c)
      (Bytewise.bare (n + 1) slash) (progress m c) := by
  have hp : c.peek? = some '(' := hh
  rw [Grammar.bare, Bytewise.bare, hp, hnumber]
  refine .step (ahead_at hc) ?_
  rw [startsNumber_marksOnly.asciiOnly.bytes, hnumber]
  refine .step (peek?_at hc) ?_
  rw [(head?_bytes rfl _).mpr hh]
  have hin := hc.advance 1
  obtain ⟨hi, he⟩ := Cursor.eat?_of_head? hh
  rw [he]
  refine .step (advance_one hh rfl) (.bind (ih.sequence _ hin (by omega)) ?_)
  rintro ⟨e, close, hclose⟩ hin' hcuts
  dsimp only at hin' hcuts ⊢
  cases hs : close.eat? ')' with
  | none => exact .step (eat_none hin' rfl hs) (unexpected_agrees hin' _)
  | some r =>
      obtain ⟨stop, hstop⟩ := r
      obtain ⟨heat, hnext, -, -⟩ := eat_some (m := m) hin' rfl hs
      exact .step heat (.ok rfl hnext hcuts)

theorem bare_succ {slash : Bool} (hc : c.In source) (hn : 32 * c.rest.length < n + 1) :
    Agrees source m (fun e _ => e.Cuts source) (Grammar.bare m.session.findCommand? slash c)
      (Bytewise.bare (n + 1) slash) (progress m c) := by
  have hhead : ∀ {x : Char}, Text.isAscii x = true →
      ((Text.bytes c.rest).head? = some x ↔ c.peek? = some x) := fun hx => head?_bytes hx _
  cases hnumber : startsNumber c.rest with
  | true =>
      rw [Grammar.bare, Bytewise.bare, hnumber]
      refine .step (ahead_at hc) ?_
      rw [startsNumber_marksOnly.asciiOnly.bytes, hnumber]
      exact number_agrees hc hnumber
  | false =>
      by_cases hdollar : c.rest.head? = some '$'
      · exact ih.bare_dollar hc hn hnumber hdollar
      by_cases hparen : c.rest.head? = some '('
      · exact ih.bare_parenthesis hc hn hnumber hparen
      rw [Grammar.bare, Bytewise.bare, hnumber]
      refine .step (ahead_at hc) ?_
      rw [startsNumber_marksOnly.asciiOnly.bytes, hnumber]
      refine .step (peek?_at hc) ?_
      rw [if_neg Bool.false_ne_true]
      split
      · next hp =>
        rw [(hhead rfl).mpr hp]
        exact (substitution_agrees hc).mono fun _ _ h => h.1
      · next hp =>
        rw [(hhead rfl).mpr hp]
        exact .step (advance_one hp rfl) (.since _ (percentSubstitution_agrees (hc.advance 1)))
      · next hp => exact absurd hp hdollar
      · next hp => exact absurd hp hparen
      · next ch h₁ h₂ h₃ h₄ hp =>
        have hne : ∀ {x : Char}, Text.isAscii x = true → (Text.bytes c.rest).head? = some x →
            ch = x := fun hx hu => Option.some.inj (hp.symm.trans ((hhead hx).mp hu))
        generalize hx : ite (Ascii.isQuote ch = true) _ _ = x
        split
        · next hu => exact absurd (hne rfl hu) h₁
        · next hu => exact absurd (hne rfl hu) h₂
        · next hu => exact absurd (hne rfl hu) h₃
        · next hu => exact absurd (hne rfl hu) h₄
        · next u _ _ _ _ hu =>
          subst hx
          cases ha : Text.isAscii ch with
          | true =>
              obtain rfl : u = ch := Option.some.inj (hu.symm.trans ((hhead ha).mpr hp))
              split
              · next hq =>
                refine quoted_agrees ha ?_ hc hp
                rintro rfl
                cases hq
              split
              · exact name_agrees slash hc
              · exact unexpected_agrees hc _
          | false =>
              have hu : Text.isAscii u = false := Bool.eq_false_iff.mpr fun h => by
                cases ha.symm.trans (hne h hu ▸ h)
              rw [Text.isQuote_ofAscii.eq_false ha, Text.isQuote_ofAscii.eq_false hu,
                Text.isWordStart_ofAscii.eq_false ha, Text.isWordStart_ofAscii.eq_false hu]
              exact unexpected_agrees hc _
        · next hu =>
          have hr : Text.bytes c.rest = [] := List.head?_eq_none_iff.mp hu
          have hempty := Text.isEmpty_bytes c.rest
          rw [hr, List.isEmpty_nil, eq_comm, List.isEmpty_iff] at hempty
          rw [Cursor.peek?, hempty] at hp
          cases hp
      · next hp =>
        have hr : c.rest = [] := List.head?_eq_none_iff.mp hp
        rw [hr]
        exact unexpected_agrees hc _

end Simulated

theorem simulated (source : List Char) (m : Machine) (n : Nat) : Simulated source m n := by
  induction n with
  | zero => constructor <;> intros <;> omega
  | succ n ih =>
      exact {
        sequence := fun _ => ih.sequence_succ
        sequenceTail := fun _ _ => ih.sequenceTail_succ
        assignment := fun _ => ih.assignment_succ
        conditional := fun _ => ih.conditional_succ
        chain := fun _ _ => ih.chain_succ
        chainTail := fun _ _ _ => ih.chainTail_succ
        operand := fun _ _ _ => ih.operand_succ
        unary := fun _ _ => ih.unary_succ
        arguments := fun _ => ih.arguments_succ
        argumentTail := fun _ => ih.argumentTail_succ
        primary := fun _ _ => ih.primary_succ
        bare := fun _ _ => ih.bare_succ }

end Bytewise

end ExprEngine
