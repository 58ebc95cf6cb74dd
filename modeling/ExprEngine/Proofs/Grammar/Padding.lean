import ExprEngine.Proofs.Grammar.Alone
import ExprEngine.Proofs.Grammar.BareOperands

/-!
# Blanks around an expression

Blanks may stand in front of an expression and behind it: the expression is the same but for the
places of its parts, and what is refused is refused for the same reason, unless something in it is
open at its end.

The functions of the grammar call each other on what is left of a source.  `Undisturbed` says of all
of them that they read alike as long as what is left is short; a character is worth 32 steps from
one function to the next, more than there are functions.

* `Grammar.Undisturbed`: one statement a function.
* `Grammar.undisturbed`: for sources of any length, by induction.
* `Grammar.parse_pad`: blanks around a source.
* `Grammar.parse_of_startsNone`: what else stands in front of it is a complaint.
-/

namespace ExprEngine

open Cursor (Aligned Longer Settled)

namespace Grammar

variable {commands : Commands} {row : List Char} {c d : Cursor} {n : Nat}

/-! ### Parts of expressions -/

/-- The arguments are the same but for the places of their parts. -/
def SameArgs (es fs : List Expr) : Prop :=
  es.map Expr.unplaced = fs.map Expr.unplaced

theorem build_same (j : Joiner) {a b a' b' : Expr} (ha : a.Same a') (hb : b.Same b')
    (s t : Span) : (j.build a b s).Same (j.build a' b' t) := by
  have hj : ∀ a b s, (j.build a b s).unplaced = j.build a.unplaced b.unplaced ⟨0, 0⟩ := by
    intro a b s
    cases j <;> rfl
  rw [Expr.Same, hj, hj, ha, hb]

theorem call_same {e f : Expr} {es fs : List Expr} (h : e.Same f) (hs : SameArgs es fs)
    (s t : Span) : (Expr.call e (.ofList es) s).Same (.call f (.ofList fs) t) := by
  show Expr.call _ _ _ = Expr.call _ _ _
  rw [h, Args.unplaced_ofList, Args.unplaced_ofList, hs]

/-- What is called does not hang on places. -/
theorem resolveCallee_same (commands : Commands) {e f : Expr} (h : e.Same f) :
    (∃ cause, resolveCallee commands e = .error cause ∧ resolveCallee commands f = .error cause) ∨
      ∃ callee e' f', resolveCallee commands e = .ok (callee, e') ∧
        resolveCallee commands f = .ok (callee, f') ∧ e'.Same f' := by
  have hname : f.trailingName? = e.trailingName? := by
    rw [← f.trailingName?_unplaced, ← h, e.trailingName?_unplaced]
  have htrail : ∀ v, (e.withTrailing v).Same (f.withTrailing v) := fun v => by
    rw [Expr.Same, Expr.unplaced_withTrailing, h, Expr.unplaced_withTrailing]
  unfold resolveCallee
  rw [hname]
  split
  · exact .inl ⟨_, rfl, rfl⟩
  split
  · exact .inr ⟨_, _, _, rfl, rfl, htrail _⟩
  split
  · split
    · exact .inr ⟨_, _, _, rfl, rfl, htrail _⟩
    · exact .inl ⟨_, rfl, rfl⟩
  · exact .inr ⟨_, _, _, rfl, rfl, h⟩

/-! ### One step of every function -/

/-- As long as what is left is so short, the functions of the grammar read the same in front of a
row of blanks as at the end of the source. -/
structure Undisturbed (commands : Commands) (row : List Char) (n : Nat) : Prop where
  sequence : ∀ {c d : Cursor}, Aligned row c d → 32 * c.rest.length + 22 < n →
    Alike row Expr.Same (Settled row) (sequence commands c) (sequence commands d)
  sequenceTail : ∀ {c d : Cursor} {e f : Expr}, Settled row c d → e.Same f →
    32 * c.rest.length + 21 < n →
    Alike row Expr.Same (Settled row) (sequenceTail commands e c) (sequenceTail commands f d)
  assignment : ∀ {c d : Cursor}, Aligned row c d → 32 * c.rest.length + 20 < n →
    Alike row Expr.Same (Settled row) (assignment commands c) (assignment commands d)
  conditional : ∀ {c d : Cursor}, Aligned row c d → 32 * c.rest.length + 19 < n →
    Alike row Expr.Same (Settled row) (conditional commands c) (conditional commands d)
  chain : ∀ {c d : Cursor} (l : Level), Aligned row c d →
    32 * c.rest.length + 3 * l.rank + 5 < n →
    Alike row Expr.Same (Settled row) (chain commands l c) (chain commands l d)
  chainTail : ∀ {c d : Cursor} {e f : Expr} (l : Level), Settled row c d → e.Same f →
    32 * c.rest.length + 3 * l.rank + 4 < n →
    Alike row Expr.Same (Settled row) (chainTail commands l e c) (chainTail commands l f d)
  operand : ∀ {c d : Cursor} (l : Level) (slash : Bool), Aligned row c d →
    (slash = true → Longer row c d) → 32 * c.rest.length + 3 * l.rank + 3 < n →
    Alike row Expr.Same (Settled row) (operand commands l slash c) (operand commands l slash d)
  unary : ∀ {c d : Cursor} (slash : Bool), Aligned row c d → (slash = true → Longer row c d) →
    32 * c.rest.length + 2 < n →
    Alike row Expr.Same (Settled row) (unary commands slash c) (unary commands slash d)
  arguments : ∀ {c d : Cursor}, Aligned row c d → 32 * c.rest.length + 22 < n →
    Alike row SameArgs (fun c d => Settled row c d ∧ c.peek? = some ')')
      (arguments commands c) (arguments commands d)
  argumentTail : ∀ {c d : Cursor}, Aligned row c d → 32 * c.rest.length + 21 < n →
    Alike row SameArgs (fun c d => Settled row c d ∧ c.peek? = some ')')
      (argumentTail commands c) (argumentTail commands d)
  primary : ∀ {c d : Cursor} {slash slash' : Bool}, Settled row c d →
    (c.rest ≠ [] → slash' = slash) → 32 * c.rest.length + 1 < n →
    Alike row Expr.Same (Settled row) (primary commands slash c) (primary commands slash' d)
  bare : ∀ {c d : Cursor} {slash slash' : Bool}, Settled row c d →
    (c.rest ≠ [] → slash' = slash) → 32 * c.rest.length < n →
    Alike row Expr.Same (Longer row) (bare commands slash c) (bare commands slash' d)

namespace Undisturbed

variable (hrow : Blanks row) (ih : Undisturbed commands row n)

include ih

theorem sequence_succ (h : c.Aligned row d) (hn : 32 * c.rest.length + 22 < n + 1) :
    Alike row Expr.Same (Settled row) (Grammar.sequence commands c)
      (Grammar.sequence commands d) := by
  rw [Grammar.sequence, Grammar.sequence]
  refine .bind (ih.assignment h (by omega)) ?_
  rintro ⟨e, c', hc'⟩ ⟨f, d', hd'⟩ hs hnext
  exact .since hc' hd' (ih.sequenceTail hnext hs (by omega))

include hrow

theorem sequenceTail_succ {e f : Expr} (h : c.Settled row d) (hs : e.Same f)
    (hn : 32 * c.rest.length + 21 < n + 1) :
    Alike row Expr.Same (Settled row) (Grammar.sequenceTail commands e c)
      (Grammar.sequenceTail commands f d) := by
  rw [Grammar.sequenceTail, Grammar.sequenceTail]
  rcases h.faces.eat? ',' rfl with ⟨hc, hd⟩ | ⟨hh, hlt, _, hc, hd⟩
  · rw [hc, hd]
    exact .ok hs h
  · rw [hc, hd]
    refine .bind (ih.assignment ((h.advance_one hh).aligned hrow) (by omega)) ?_
    rintro ⟨e', c', hc'⟩ ⟨f', d', hd'⟩ hs' hnext
    exact .since _ _ (ih.sequenceTail hnext (congrArg₂ (Expr.sequence · · _) hs hs')
      (by omega))

theorem assignment_succ (h : c.Aligned row d) (hn : 32 * c.rest.length + 20 < n + 1) :
    Alike row Expr.Same (Settled row) (Grammar.assignment commands c)
      (Grammar.assignment commands d) := by
  rw [Grammar.assignment, Grammar.assignment]
  refine .bind (ih.conditional h (by omega)) ?_
  rintro ⟨e, c', hc'⟩ ⟨f, d', hd'⟩ hs hnext
  dsimp only at hs hnext ⊢
  rcases hnext.read? hrow.ends assignment?_marksOnly length_of_assignment? with
    ⟨hc, hd⟩ | ⟨op, k, hlt, _, hc, hd, hl⟩
  · rw [hc, hd]
    exact .ok hs hnext
  · rw [hc, hd]
    refine .bind (ih.assignment (hl.aligned hrow) (by omega)) ?_
    rintro ⟨e', c'', _⟩ ⟨f', d'', _⟩ hs' hnext
    exact .ok (congrArg₂ (Expr.binary op · · _) hs hs') hnext

theorem conditional_succ (h : c.Aligned row d) (hn : 32 * c.rest.length + 19 < n + 1) :
    Alike row Expr.Same (Settled row) (Grammar.conditional commands c)
      (Grammar.conditional commands d) := by
  have hrank : Level.disjunction.rank = 4 := rfl
  rw [Grammar.conditional, Grammar.conditional]
  refine .bind (ih.chain _ h (by omega)) ?_
  rintro ⟨e, c', hc'⟩ ⟨f, d', hd'⟩ hs hnext
  dsimp only at hs hnext ⊢
  rcases hnext.faces.eat? '?' rfl with ⟨hc, hd⟩ | ⟨hh, hlt, _, hc, hd⟩
  · rw [hc, hd]
    exact .ok hs hnext
  · have hyes : Settled row (c'.advance 1).pastBlanks.val (d'.advance 1).pastBlanks.val :=
      (hnext.advance_one hh).aligned hrow
    have hle := (c'.advance 1).pastBlanks.property
    rw [hc, hd]
    dsimp only
    -- the operand in the middle may be left out
    rcases hyes.faces.eat? ':' rfl with ⟨hc, hd⟩ | ⟨hh, hlt', _, hc, hd⟩
    · rw [hc, hd]
      refine .bind (ih.sequence (hyes.aligned hrow) (by omega)) ?_
      rintro ⟨e', c'', hc''⟩ ⟨f', d'', hd''⟩ hs' hcolon
      dsimp only at hs' hcolon ⊢
      rcases hcolon.faces.eat? ':' rfl with ⟨hc, hd⟩ | ⟨hh, hlt', _, hc, hd⟩
      · rw [hc, hd]
        exact unexpected_alike hrow.ends hcolon _
      · rw [hc, hd]
        refine .bind (ih.conditional ((hcolon.advance_one hh).aligned hrow) (by omega)) ?_
        rintro ⟨no, _, _⟩ ⟨no', _, _⟩ hno hnext
        refine .ok ?_ hnext
        show Expr.choice _ _ _ _ _ = Expr.choice _ _ _ _ _
        rw [hs, hs', hno]
    · rw [hc, hd]
      refine .bind (ih.conditional ((hyes.advance_one hh).aligned hrow) (by omega)) ?_
      rintro ⟨no, _, _⟩ ⟨no', _, _⟩ hno hnext
      exact .ok (congrArg₂ (Expr.orElse · · _) hs hno) hnext

omit hrow in
theorem chain_succ {l : Level} (h : c.Aligned row d)
    (hn : 32 * c.rest.length + 3 * l.rank + 5 < n + 1) :
    Alike row Expr.Same (Settled row) (Grammar.chain commands l c)
      (Grammar.chain commands l d) := by
  rw [Grammar.chain, Grammar.chain]
  refine .bind (ih.operand l false h (absurd · Bool.false_ne_true) (by omega)) ?_
  rintro ⟨e, c', hc'⟩ ⟨f, d', hd'⟩ hs hnext
  exact .since hc' hd' (ih.chainTail l hnext hs (by omega))

theorem chainTail_succ {l : Level} {e f : Expr} (h : c.Settled row d) (hs : e.Same f)
    (hn : 32 * c.rest.length + 3 * l.rank + 4 < n + 1) :
    Alike row Expr.Same (Settled row) (Grammar.chainTail commands l e c)
      (Grammar.chainTail commands l f d) := by
  rw [Grammar.chainTail, Grammar.chainTail]
  rcases h.read? hrow.ends (joiner?_marksOnly l) length_of_joiner? with
    ⟨hc, hd⟩ | ⟨j, k, hlt, _, hc, hd, hl⟩
  · rw [hc, hd]
    exact .ok hs h
  · rw [hc, hd]
    refine .bind (ih.operand l _ (hl.aligned hrow) (fun _ => hl) (by omega)) ?_
    rintro ⟨e', c', hc'⟩ ⟨f', d', hd'⟩ hs' hnext
    exact .since _ _ (ih.chainTail l hnext (build_same j hs hs' _ _) (by omega))

omit hrow in
theorem operand_succ {l : Level} {slash : Bool} (h : c.Aligned row d)
    (hslash : slash = true → c.Longer row d)
    (hn : 32 * c.rest.length + 3 * l.rank + 3 < n + 1) :
    Alike row Expr.Same (Settled row) (Grammar.operand commands l slash c)
      (Grammar.operand commands l slash d) := by
  rw [Grammar.operand, Grammar.operand]
  cases ht : l.tighter? with
  | none => exact ih.unary slash h hslash (by omega)
  | some m =>
      have := Level.rank_of_tighter? ht
      exact ih.chain m h (by omega)

/-- A name stands right behind the slash in both sources, unless nothing is left. -/
theorem unary_succ {slash : Bool} (h : c.Aligned row d) (hslash : slash = true → c.Longer row d)
    (hn : 32 * c.rest.length + 2 < n + 1) :
    Alike row Expr.Same (Settled row) (Grammar.unary commands slash c)
      (Grammar.unary commands slash d) := by
  have hstart : Settled row c.pastBlanks.val d.pastBlanks.val := h
  have hle := c.pastBlanks.property
  rw [Grammar.unary, Grammar.unary]
  dsimp only
  rcases hstart.read? hrow.ends unary?_marksOnly length_of_unary? with
    ⟨hc, hd⟩ | ⟨op, k, hlt, _, hc, hd, hl⟩
  · rw [hc, hd]
    have hbehind : c.pastBlanks.val.rest ≠ [] →
        (slash && d.pastBlanks.val.pos == d.pos) = (slash && c.pastBlanks.val.pos == c.pos) := by
      intro hne
      cases slash with
      | false => rfl
      | true => exact (hslash rfl).pos_pastBlanks hne
    refine .bind (ih.primary hstart hbehind (by omega)) ?_
    rintro ⟨e, c', hc'⟩ ⟨f, d', hd'⟩ hs hnext
    dsimp only at hs hnext ⊢
    rcases hnext.faces.eat? '(' rfl with ⟨hc, hd⟩ | ⟨hh, hlt, _, hc, hd⟩
    · rw [hc, hd]
      exact .ok hs hnext
    · rw [hc, hd]
      dsimp only
      rcases resolveCallee_same commands hs with
        ⟨cause, he, hf⟩ | ⟨callee, e', f', he, hf, hcallee⟩
      · rw [he, hf]
        exact .refuse hnext.notes _ _ _
      · rw [he, hf]
        refine .bind (ih.arguments ((hnext.advance_one hh).aligned hrow) (by omega)) ?_
        rintro ⟨args, close, hclose⟩ ⟨args', close', hclose'⟩ hargs ⟨hsettled, hpeek⟩
        dsimp only at hargs hsettled hpeek ⊢
        have hlen : args'.length = args.length := by
          rw [← List.length_map Expr.unplaced, ← hargs, List.length_map]
        rw [hlen]
        cases callee.countError? args.length with
        | some cause => exact .refuse hsettled.notes _ _ _
        | none =>
            exact .ok (call_same hcallee hargs _ _) ((hsettled.advance_one hpeek).aligned hrow)
  · rw [hc, hd]
    refine .bind (ih.unary false (hl.aligned hrow) (absurd · Bool.false_ne_true) (by omega)) ?_
    rintro ⟨e, c', _⟩ ⟨f, d', _⟩ hs hnext
    exact .ok (congrArg (Expr.unary op · _) hs) hnext

theorem arguments_succ (h : c.Aligned row d) (hn : 32 * c.rest.length + 22 < n + 1) :
    Alike row SameArgs (fun c d => Settled row c d ∧ c.peek? = some ')')
      (Grammar.arguments commands c) (Grammar.arguments commands d) := by
  have hstart : Settled row c.pastBlanks.val d.pastBlanks.val := h
  have hle := c.pastBlanks.property
  have hpeek : d.pastBlanks.val.peek? = c.pastBlanks.val.peek? := hstart.head?
  rw [Grammar.arguments, Grammar.arguments]
  dsimp only
  rw [hpeek]
  split
  · next hp => exact .ok rfl ⟨hstart, hp⟩
  · exact .since _ _ (ih.argumentTail (hstart.aligned hrow) (by omega))

theorem argumentTail_succ (h : c.Aligned row d) (hn : 32 * c.rest.length + 21 < n + 1) :
    Alike row SameArgs (fun c d => Settled row c d ∧ c.peek? = some ')')
      (Grammar.argumentTail commands c) (Grammar.argumentTail commands d) := by
  rw [Grammar.argumentTail, Grammar.argumentTail]
  refine .bind (ih.assignment h (by omega)) ?_
  rintro ⟨e, c', hc'⟩ ⟨f, d', hd'⟩ hs hnext
  have hpeek : d'.peek? = c'.peek? := hnext.head?
  dsimp only at hs hnext ⊢
  rw [hpeek]
  split
  · next hp => exact .ok (congrArg (fun e => [e]) hs) ⟨hnext, hp⟩
  · rcases hnext.faces.eat? ',' rfl with ⟨hc, hd⟩ | ⟨hh, hlt, _, hc, hd⟩
    · rw [hc, hd]
      exact unexpected_alike hrow.ends hnext _
    · rw [hc, hd]
      refine .bind (ih.argumentTail ((hnext.advance_one hh).aligned hrow) (by omega)) ?_
      rintro ⟨args, _, _⟩ ⟨args', _, _⟩ hargs hclose
      exact .ok (congrArg₂ List.cons hs hargs) hclose

theorem primary_succ {slash slash' : Bool} (h : c.Settled row d)
    (hslash : c.rest ≠ [] → slash' = slash) (hn : 32 * c.rest.length + 1 < n + 1) :
    Alike row Expr.Same (Settled row) (Grammar.primary commands slash c)
      (Grammar.primary commands slash' d) := by
  rw [Grammar.primary, Grammar.primary]
  refine .bind (ih.bare h hslash (by omega)) ?_
  rintro ⟨e, c', _⟩ ⟨f, d', _⟩ hs hnext
  exact .ok hs (hnext.aligned hrow)

/-- What starts with a dollar sign: an expression in brackets, the output of a command line or the
text of a macro. -/
theorem bare_dollar {slash : Bool} (h : c.Longer row d) (hn : 32 * c.rest.length < n + 1)
    (hnumber : startsNumber c.rest = false) (hh : c.rest.head? = some '$') :
    Alike row Expr.Same (Longer row) (Grammar.bare commands slash c)
      (Grammar.bare commands slash d) := by
  have hfaces := h.faces hrow.ends
  have hp : c.peek? = some '$' := hh
  have hp' : d.peek? = some '$' := (hfaces '$' rfl).mpr hh
  have hnumber' : startsNumber d.rest = false := by
    rw [h.rest, startsNumber_append hrow.ends, hnumber]
  have hone := h.advance_one hh
  obtain ⟨hlt, hc⟩ := Cursor.eat?_of_head? hh
  obtain ⟨_, hd⟩ := Cursor.eat?_of_head? hp'
  rw [Grammar.bare, Grammar.bare, hp, hp', hnumber, hnumber', hc, hd]
  dsimp only
  rcases (hone.faces hrow.ends).eat? '[' rfl with ⟨hc, hd⟩ | ⟨hh, hlt', _, hc, hd⟩
  · rcases (hone.faces hrow.ends).eat? '(' rfl with ⟨hc', hd'⟩ | ⟨hh, _, _, hc', hd'⟩
    · rw [hc, hd, hc', hd']
      exact .since _ _ (body_alike hrow hone c d)
    · rw [hc, hd, hc', hd']
      exact .since _ _ (output_alike hrow (hone.advance_one hh) c d)
  · have hinside := (hone.advance_one hh).note .bracketed
    have hle := (((c.advance 1).advance 1).note .bracketed).pastBlanks.property
    have hlen : (((c.advance 1).advance 1).note .bracketed).rest.length =
        ((c.advance 1).advance 1).rest.length := rfl
    rw [hc, hd]
    refine .bind (ih.sequence (hinside.aligned hrow |>.aligned hrow) (by omega)) ?_
    rintro ⟨e, close, hclose⟩ ⟨f, close', hclose'⟩ hs hnext
    dsimp only at hs hnext ⊢
    rw [hnext.isEmpty]
    split
    · exact .refuse hnext.notes _ _ _
    · rcases hnext.faces.eat? ']' rfl with ⟨hc, hd⟩ | ⟨hh, hlt', _, hc, hd⟩
      · rw [hc, hd]
        exact unexpected_alike hrow.ends hnext _
      · rw [hc, hd]
        exact .ok hs (hnext.advance_one hh)

/-- What starts with a parenthesis. -/
theorem bare_parenthesis {slash : Bool} (h : c.Longer row d) (hn : 32 * c.rest.length < n + 1)
    (hnumber : startsNumber c.rest = false) (hh : c.rest.head? = some '(') :
    Alike row Expr.Same (Longer row) (Grammar.bare commands slash c)
      (Grammar.bare commands slash d) := by
  have hfaces := h.faces hrow.ends
  have hp : c.peek? = some '(' := hh
  have hp' : d.peek? = some '(' := (hfaces '(' rfl).mpr hh
  have hnumber' : startsNumber d.rest = false := by
    rw [h.rest, startsNumber_append hrow.ends, hnumber]
  obtain ⟨hlt, hc⟩ := Cursor.eat?_of_head? hh
  obtain ⟨_, hd⟩ := Cursor.eat?_of_head? hp'
  rw [Grammar.bare, Grammar.bare, hp, hp', hnumber, hnumber', hc, hd]
  refine .bind (ih.sequence ((h.advance_one hh).aligned hrow) (by omega)) ?_
  rintro ⟨e, close, hclose⟩ ⟨f, close', hclose'⟩ hs hnext
  dsimp only at hs hnext ⊢
  rcases hnext.faces.eat? ')' rfl with ⟨hc, hd⟩ | ⟨hh, hlt', _, hc, hd⟩
  · rw [hc, hd]
    exact unexpected_alike hrow.ends hnext _
  · rw [hc, hd]
    exact .ok hs (hnext.advance_one hh)

theorem bare_succ {slash slash' : Bool} (h : c.Settled row d)
    (hslash : c.rest ≠ [] → slash' = slash) (hn : 32 * c.rest.length < n + 1) :
    Alike row Expr.Same (Longer row) (Grammar.bare commands slash c)
      (Grammar.bare commands slash' d) := by
  by_cases hc : c.rest = []
  · -- nothing is left of either source
    have hd := h.rest_of_nil hc
    have hend : ∀ (slash : Bool) {c : Cursor}, c.rest = [] →
        Grammar.bare commands slash c = c.unexpected .operand := by
      intro slash c hc
      have hp : c.peek? = none := by rw [Cursor.peek?, hc]; rfl
      have hnumber : startsNumber c.rest = false := by rw [hc]; rfl
      rw [Grammar.bare, hp, hnumber]
      rfl
    rw [hend slash hc, hend slash' hd]
    exact unexpected_alike hrow.ends h _
  obtain rfl := hslash hc
  have hl := h.longer hc
  have hpeek : d.peek? = c.peek? := h.head?
  have hstart : startsNumber d.rest = startsNumber c.rest := by
    rw [hl.rest, startsNumber_append hrow.ends]
  cases hnumber : startsNumber c.rest with
  | true =>
      rw [Grammar.bare, Grammar.bare, hstart, hnumber]
      exact number_alike hrow.ends hl hnumber
  | false =>
      by_cases hdollar : c.rest.head? = some '$'
      · exact ih.bare_dollar hrow hl hn hnumber hdollar
      by_cases hparen : c.rest.head? = some '('
      · exact ih.bare_parenthesis hrow hl hn hnumber hparen
      rw [Grammar.bare, Grammar.bare, hstart, hnumber, hpeek, if_neg Bool.false_ne_true,
        if_neg Bool.false_ne_true]
      split
      · exact substitution_alike hrow hl
      · next hp => exact .since _ _ (percentSubstitution_alike hrow (hl.advance_one hp))
      · next hp => exact absurd hp hdollar
      · next hp => exact absurd hp hparen
      · next ch _ _ _ _ hp =>
        split
        · next hq => exact quoted_alike hrow hl (Text.isQuote_ofMarks ch hq) hp
        split
        · exact name_alike hrow.ends hl _
        · exact unexpected_alike hrow.ends h _
      · exact unexpected_alike hrow.ends h _

end Undisturbed

theorem undisturbed (commands : Commands) (hrow : Blanks row) (n : Nat) :
    Undisturbed commands row n := by
  -- a call either passes a character or goes to a function that comes further down in the list
  induction n with
  | zero => constructor <;> intros <;> omega
  | succ n ih =>
      exact {
        sequence := ih.sequence_succ
        sequenceTail := ih.sequenceTail_succ hrow
        assignment := ih.assignment_succ hrow
        conditional := ih.conditional_succ hrow
        chain := fun _ => ih.chain_succ
        chainTail := fun _ => ih.chainTail_succ hrow
        operand := fun _ _ => ih.operand_succ
        unary := fun _ => ih.unary_succ hrow
        arguments := ih.arguments_succ hrow
        argumentTail := ih.argumentTail_succ hrow
        primary := ih.primary_succ hrow
        bare := ih.bare_succ hrow }

/-! ### Sources -/

/-- What a source is, and what the same source is with blanks around it, of which the row stands
behind: the same expression, or refused alike. -/
inductive Agree (row : List Char) :
    Except CompileError Expr × List Note → Except CompileError Expr × List Note → Prop
  | ok {e f : Expr} {notes : List Note} : e.Same f → Agree row (.ok e, notes) (.ok f, notes)
  | same {e f : CompileError} {notes : List Note} : f.cause = e.cause →
    Agree row (.error e, notes) (.error f, notes)
  | unfinished {e f : CompileError} {notes more : List Note} : row ≠ [] → e.cause.Unfinished →
    (∀ n ∈ more, ∃ q c, n = .needlessEscape q c) →
    Agree row (.error e, notes) (.error f, notes ++ more)

theorem Agree.of_like {r s : Rejection} (h : r.Like row s) :
    Agree row (.error r.error, r.notes.reverse) (.error s.error, s.notes.reverse) := by
  cases h with
  | same hc hn =>
      rw [hn]
      exact .same hc
  | unfinished more hr hu hm hn =>
      rw [hn, List.reverse_append]
      exact .unfinished hr hu fun n h => hm n (List.mem_reverse.mp h)

/-- **Blanks around a source do not matter**, unless something is open at its end. -/
theorem parse_pad (commands : Commands) {lead : List Char} (hl : Blanks lead) (hrow : Blanks row)
    (core : List Char) :
    Agree row (parse commands (String.ofList core))
      (parse commands (String.ofList (lead ++ core ++ row))) := by
  have haligned : Aligned row (.ofString (String.ofList core))
      (.ofString (String.ofList (lead ++ core ++ row))) := by
    refine Cursor.aligned_of_lead hl hrow ?_ rfl
    simp [Cursor.ofString]
  have h := (undisturbed commands hrow _).sequence haligned (Nat.lt_succ_self _)
  unfold parse
  dsimp only
  generalize sequence commands (.ofString (String.ofList core)) = x at h ⊢
  generalize sequence commands (.ofString (String.ofList (lead ++ core ++ row))) = y at h ⊢
  cases h with
  | error h => exact .of_like h
  | @ok p q hs hn =>
      obtain ⟨e, stop, _⟩ := p
      obtain ⟨f, stop', _⟩ := q
      have hnotes := hn.notes
      have hend := hn.isEmpty
      dsimp only at hs hnotes hend
      cases he : stop.rest.isEmpty with
      | true =>
          simp only [bind, Except.bind, hend, he, if_pos, pure, Except.pure, hnotes]
          exact .ok hs
      | false =>
          obtain ⟨r, s, hlike, hr, hs⟩ := unexpected_like hrow.ends hn .endOfExpression
          simp only [bind, Except.bind, hend, he, Bool.false_eq_true, if_false, hr, hs]
          exact .of_like hlike

/-! ### Sources that no operand starts -/

/-- No operand starts with the character: it is a slash, or no blank but white space, or not
ASCII. -/
def StartsNone (ch : Char) : Prop :=
  ch = '/' ∨ ch = '\x0b' ∨ Text.isMark ch = false

section

variable {ch : Char} (h : StartsNone ch)

include h

theorem StartsNone.ne {other : Char} (ho : Text.isMark other = true)
    (hne : other ≠ '/' ∧ other ≠ '\x0b') : ch ≠ other := by
  rintro rfl
  obtain h | h | h := h
  · exact hne.1 h
  · exact hne.2 h
  · cases ho.symm.trans h

theorem StartsNone.eq_false {p : Char → Bool} (hp : Text.OfMarks p)
    (hne : p '/' = false ∧ p '\x0b' = false) : p ch = false := by
  obtain rfl | rfl | h := h
  · exact hne.1
  · exact hne.2
  · exact hp.eq_false h

theorem unary?_of_startsNone (cs : List Char) : unary? (ch :: cs) = none := by
  have hnot : ch ≠ '!' := h.ne rfl (by decide)
  have hplus : ch ≠ '+' := h.ne rfl (by decide)
  have hminus : ch ≠ '-' := h.ne rfl (by decide)
  unfold unary?
  split <;> simp_all

theorem bare_of_startsNone (commands : Commands) (slash : Bool) {c : Cursor}
    (hc : c.rest.head? = some ch) : bare commands slash c = c.unexpected .operand := by
  have hnumber : startsNumber c.rest = false := by
    have hdot : ch ≠ '.' := h.ne rfl (by decide)
    have hdigit : ch.isDigit = false := h.eq_false Text.isDigit_ofMarks (by decide)
    obtain ⟨cs, hr⟩ : ∃ cs, c.rest = ch :: cs := List.head?_eq_some_iff.mp hc
    rw [hr]
    unfold startsNumber
    split <;> simp_all
  have hpeek : c.peek? = some ch := hc
  have hbrace : ch ≠ '{' := h.ne rfl (by decide)
  have hpercent : ch ≠ '%' := h.ne rfl (by decide)
  have hdollar : ch ≠ '$' := h.ne rfl (by decide)
  have hparen : ch ≠ '(' := h.ne rfl (by decide)
  have hquote : Ascii.isQuote ch = false := h.eq_false Text.isQuote_ofMarks (by decide)
  have hword : Ascii.isWordStart ch = false :=
    h.eq_false (fun d hd => Text.isWord_ofMarks d (Ascii.isWord_of_isWordStart hd)) (by decide)
  rw [bare, hpeek, hnumber]
  simp only [Bool.false_eq_true, if_false]
  split <;> simp_all

/-- Such a source is refused, with a complaint about its start. -/
theorem parse_of_startsNone (commands : Commands) {source : String}
    (hs : (start source).rest.head? = some ch) :
    ∃ e text, parse commands source = (.error e, []) ∧
      e.cause = .expected .operand (some text) := by
  obtain ⟨cs, hr⟩ : ∃ cs, (start source).rest = ch :: cs := List.head?_eq_some_iff.mp hs
  have hu : unary? (start source).rest = none := by
    rw [hr, unary?_of_startsNone h]
  have hrefused := parse_refused hu (bare_of_startsNone h commands false hs)
  have hcause : (if (start source).rest.isEmpty then none else
      some ((start source).textTo ((start source).advance
        (Cursor.offendingLength (start source).rest)))) =
      some ((start source).textTo ((start source).advance
        (Cursor.offendingLength (start source).rest))) := by
    rw [hr]
    rfl
  exact ⟨_, _, hrefused, congrArg (CompileCause.expected .operand) hcause⟩

end

end Grammar

end ExprEngine
