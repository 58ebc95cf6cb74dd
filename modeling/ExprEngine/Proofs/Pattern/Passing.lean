import ExprEngine.Proofs.Pattern.Faults
import ExprEngine.Proofs.Pattern.Steps

/-!
# Getting past the front of a glob

If a pattern matches, the matcher comes to what stands behind a row of tokens, wherever that is.
Outside an alternation it reads the row its own way: it looks for the brace that ends an alternation
without regard to classes, and goes on in the middle of a class if it finds one there.

* `Passable`: what the matcher can read to the end.
* `passable_glyphs`: it can read tokens that leave no alternation open.
* `Passable.leadsTo`: then it comes to what stands behind them.
* `needsSpace_of_tokens`: inside an alternation it comes to a space only if the text has one.
-/

namespace ExprEngine.Glob

open Glyph

/-! ### Rows that the matcher can read -/

/-- A row of glyphs in which each class and each alternation that the matcher starts is closed. -/
inductive Passable : List Glyph → Prop where
  | nil : Passable []
  | star {gs} : Passable gs → Passable (mark '*' (by decide) :: gs)
  | any {gs} : Passable gs → Passable (mark '?' (by decide) :: gs)
  | plain {g gs} (hp : g.isPlain = true) (ho : g.isBare (byte '{') = false) :
      Passable gs → Passable (g :: gs)
  | ofClass {body gs} (closed : ∀ g ∈ body, g.isBare (byte ']') = false) :
      Passable gs → Passable (mark '[' (by decide) :: (body ++ mark ']' (by decide) :: gs))
  | alternation {word gs} (hw : ∀ g ∈ word, g.isBare (byte '}') = false) :
      Passable gs → Passable (mark '{' (by decide) :: (word ++ mark '}' (by decide) :: gs))

/-- The row ends an alternation, and the matcher can read on. -/
def Closes (gs : List Glyph) : Prop :=
  ∃ word rest, (∀ g ∈ word, g.isBare (byte '}') = false) ∧ Passable rest ∧
    gs = word ++ mark '}' (by decide) :: rest

section

variable {gs front body : List Glyph}

theorem Closes.append (hf : ∀ g ∈ front, g.isBare (byte '}') = false) (h : Closes gs) :
    Closes (front ++ gs) := by
  obtain ⟨word, rest, hw, hr, rfl⟩ := h
  refine ⟨front ++ word, rest, fun g hg => ?_, hr, (List.append_assoc ..).symm⟩
  exact (List.mem_append.mp hg).elim (hf g) (hw g)

theorem Closes.cons {g : Glyph} (hg : g.isBare (byte '}') = false) (h : Closes gs) :
    Closes (g :: gs) :=
  h.append (List.forall_mem_singleton.mpr hg)

theorem Closes.alternation (h : Closes gs) : Passable (mark '{' (by decide) :: gs) := by
  obtain ⟨word, rest, hw, hr, rfl⟩ := h
  exact .alternation hw hr

/-- A brace in a class ends an alternation in the middle of the class. -/
theorem closes_of_class
    (h : ∀ rest, rest <:+ body → Passable (rest ++ mark ']' (by decide) :: gs)) (hc : Closes gs) :
    Closes (body ++ mark ']' (by decide) :: gs) := by
  obtain hw | ⟨word, g, rest, hw, hg, rfl⟩ := split_at_bare (byte '}') body
  · exact (hc.cons rfl).append hw
  · obtain rfl := eq_mark (by decide) hg
    have hrest : rest <:+ word ++ mark '}' (by decide) :: rest :=
      (List.suffix_cons _ rest).trans (List.suffix_append word _)
    exact ⟨word, _, hw, h rest hrest, List.append_assoc ..⟩

theorem passable_of_class (closed : ∀ g ∈ body, g.isBare (byte ']') = false) (h : Passable gs)
    (hc : Closes gs) : Passable (body ++ mark ']' (by decide) :: gs) := by
  induction hn : body.length using Nat.strongRecOn generalizing body with
  | ind n ih =>
      subst hn
      cases body with
      | nil => exact .plain rfl rfl h
      | cons g body =>
          rw [List.forall_mem_cons] at closed
          have hrest (rest : List Glyph) (hr : rest <:+ body) :
              Passable (rest ++ mark ']' (by decide) :: gs) :=
            ih rest.length (Nat.lt_succ_of_le hr.length_le)
              (fun c hm => closed.2 c (hr.mem hm)) rfl
          have hbody := hrest body (List.suffix_refl body)
          obtain rfl | rfl | rfl | plain := g.eq_mark_or_isPlain
          · exact hbody.star
          · exact hbody.any
          · exact .ofClass closed.2 h
          by_cases ho : g.isBare (byte '{') = true
          · obtain rfl := eq_mark (by decide) ho
            exact (closes_of_class hrest hc).alternation
          · exact .plain plain (Bool.not_eq_true _ ▸ ho) hbody

/-- Tokens that leave nothing open can be read, and tokens that close what is open end an
alternation.  Both go by one induction, since a brace in the row calls for the other statement about
the rest of it. -/
theorem passable_and_closes (ts : List Token) :
    (∀ inWord, isOpenAfter inWord ts = false → Passable (glyphs ts)) ∧
      (isOpenAfter true ts = false → Closes (glyphs ts)) := by
  induction ts with
  | nil => exact ⟨fun _ _ => .nil, fun h => Bool.noConfusion h⟩
  | cons t ts ih =>
      obtain ⟨hpass, hclose⟩ := ih
      rw [isOpenAfter_cons, glyphs_cons]
      cases t with
      | star => exact ⟨fun _ h => (hpass _ h).star, fun h => (hclose h).cons rfl⟩
      | any => exact ⟨fun _ h => (hpass _ h).any, fun h => (hclose h).cons rfl⟩
      | ofClass body closed =>
          simp only [Token.glyphs, List.cons_append, List.append_assoc, List.nil_append]
          refine ⟨fun _ h => .ofClass closed (hpass _ h), fun h => .cons rfl ?_⟩
          refine closes_of_class (fun rest hr => ?_) (hclose h)
          exact passable_of_class (fun g hg => closed g (hr.mem hg)) (hpass true h) (hclose h)
      | lit g plain =>
          change _ ∧ (_ → Closes (g :: glyphs ts))
          by_cases ho : g.isBare (byte '{') = true
          · obtain rfl := eq_mark (by decide) ho
            exact ⟨fun _ h => (hclose h).alternation, fun h => (hclose h).cons rfl⟩
          rw [Bool.not_eq_true] at ho
          refine ⟨fun _ h => .plain plain ho (hpass _ h), ?_⟩
          by_cases hc : g.isBare (byte '}') = true
          · obtain rfl := eq_mark (by decide) hc
            exact fun h => ⟨[], _, List.forall_mem_nil _, hpass false h, rfl⟩
          · rw [Bool.not_eq_true] at hc
            have hopens : (Token.lit g plain).opens true = true :=
              Token.opens_of_neither (t := .lit g plain) ho hc true
            rw [hopens]
            exact fun h => (hclose h).cons hc

theorem passable_glyphs {inWord : Bool} {ts : List Token} (h : isOpenAfter inWord ts = false) :
    Passable (glyphs ts) :=
  (passable_and_closes ts).1 inWord h

end

/-! ### Coming to what stands behind -/

section

variable {gs : List Glyph} {q : List UInt8}

/-- At some place, with some of the budget left, the pattern matches. -/
def Reached (q : List UInt8) : Prop :=
  ∃ n t, matchesAt n none q t = true

theorem reached_nil : Reached [] :=
  ⟨1, ⟨none, []⟩, matchesAt_nil⟩

theorem reached_of_token {tok : Token} (hs : tok ≠ .star) (ho : tok.isBare (byte '{') = false)
    (h : Reached (tok.spelling ++ q)) : Reached q := by
  obtain ⟨n, t, h⟩ := h
  obtain ⟨n, rfl⟩ := exists_budget h
  have hnone : (none : Option Nat) ≠ some 0 := nofun
  rw [matchesAt_token hnone hs (fun hb => by rw [ho] at hb; cases hb), Place.eats_iff] at h
  obtain ⟨c, text, -, -, hm⟩ := h
  exact ⟨_, _, hm⟩

/-- An alternation ends for the matcher at the first brace. -/
theorem exists_alternative {word : List Glyph} (hw : ∀ g ∈ word, g.isBare (byte '}') = false)
    (h : Reached (byte '{' :: (spelled word ++ byte '}' :: q))) :
    ∃ n t, anyAlternative n (spelled word).length (spelled word ++ byte '}' :: q) t = true ∧
      matchesAt (n + 1) none q (Place.wordEnd t.before t.rest) = true := by
  obtain ⟨n, t, h⟩ := h
  obtain ⟨n, rfl⟩ := exists_budget h
  obtain ⟨-, hany, hm⟩ := (matchesAt_alternation (findUnescaped?_first (by decide) hw q)).mp h
  have hq : (spelled word ++ byte '}' :: q).drop ((spelled word).length + 1) = q := by simp
  rw [hq] at hm
  exact ⟨n, t, hany, hm⟩

theorem reached_of_alternation {word : List Glyph} (hw : ∀ g ∈ word, g.isBare (byte '}') = false)
    (h : Reached (byte '{' :: (spelled word ++ byte '}' :: q))) : Reached q := by
  obtain ⟨n, t, -, hm⟩ := exists_alternative hw h
  exact ⟨_, _, hm⟩

/-- From `pat` the matcher comes to `q`, and also if it has passed over the stars and question marks
in front of `pat` at once. -/
structure LeadsTo (pat q : List UInt8) : Prop where
  reach : Reached pat → Reached q
  skip : ∀ room t r p u, skipStars false room pat t = some (r, p, u) → Reached p → Reached q

namespace LeadsTo

variable {pat : List UInt8}

/-- Where no star and no question mark stands, nothing is passed over. -/
theorem of_head (hs : pat.head? ≠ some (byte '*')) (ha : pat.head? ≠ some (byte '?'))
    (h : Reached pat → Reached q) : LeadsTo pat q where
  reach := h
  skip room t r p u hk := by
    rw [skipStars_of_head hs ha] at hk
    cases hk
    exact h

theorem star (h : LeadsTo pat q) : LeadsTo (byte '*' :: pat) q := by
  have hreach : Reached (byte '*' :: pat) → Reached q := by
    rintro ⟨n, t, hm⟩
    obtain ⟨n, rfl⟩ := exists_budget hm
    obtain ⟨r, p, u, hk, rfl | ⟨v, -, -, hm⟩⟩ := (matchesAt_star pat).mp hm
    · exact h.skip _ _ _ _ _ hk reached_nil
    · exact h.skip _ _ _ _ _ hk ⟨n, v, hm⟩
  refine ⟨hreach, fun room t r p u hk => ?_⟩
  cases room with
  | zero =>
      rw [skipStars_zero] at hk
      cases hk
      exact hreach
  | succ room =>
      rw [skipStars_star] at hk
      exact h.skip room t r p u hk

theorem any (h : LeadsTo pat q) : LeadsTo (byte '?' :: pat) q := by
  have hreach : Reached (byte '?' :: pat) → Reached q := fun hm =>
    h.reach (reached_of_token (show Token.any ≠ .star from nofun) rfl hm)
  refine ⟨hreach, fun room t r p u hk => ?_⟩
  cases room with
  | zero =>
      rw [skipStars_zero] at hk
      cases hk
      exact hreach
  | succ room =>
      rw [skipStars_any] at hk
      split at hk
      · cases hk
      · exact h.skip room _ r p u hk

theorem token {tok : Token} (hw : tok.isWild = false) (ho : tok.isBare (byte '{') = false)
    (h : LeadsTo pat q) : LeadsTo (tok.spelling ++ pat) q :=
  of_head (head?_of_not_wild hw pat).1 (head?_of_not_wild hw pat).2 fun hm =>
    h.reach (reached_of_token (ne_star hw) ho hm)

theorem alternation {word : List Glyph} (hw : ∀ g ∈ word, g.isBare (byte '}') = false)
    (h : LeadsTo pat q) : LeadsTo (byte '{' :: (spelled word ++ byte '}' :: pat)) q := by
  refine of_head ?_ ?_ fun hm => h.reach (reached_of_alternation hw hm)
  · rw [List.head?_cons]; decide
  · rw [List.head?_cons]; decide

end LeadsTo

/-- If a pattern matches that starts with a row the matcher can read, it comes to what stands
behind. -/
theorem Passable.leadsTo (h : Passable gs) (hs : q.head? ≠ some (byte '*'))
    (ha : q.head? ≠ some (byte '?')) : LeadsTo (spelled gs ++ q) q := by
  induction h with
  | nil => exact .of_head hs ha id
  | star _ ih => exact ih.star
  | any _ ih => exact ih.any
  | @plain g gs hp ho _ ih =>
      rw [spelled_cons, List.append_assoc, ← Token.spelling_lit g hp]
      exact ih.token rfl ho
  | @ofClass body gs closed _ ih =>
      have hspell : spelled (mark '[' (by decide) :: (body ++ mark ']' (by decide) :: gs)) ++ q =
          (Token.ofClass body closed).spelling ++ (spelled gs ++ q) := by
        simp
      rw [hspell]
      exact ih.token rfl rfl
  | @alternation word gs hw _ ih =>
      have hspell : spelled (mark '{' (by decide) :: (word ++ mark '}' (by decide) :: gs)) ++ q =
          byte '{' :: (spelled word ++ byte '}' :: (spelled gs ++ q)) := by
        simp
      rw [hspell]
      exact ih.alternation hw

/-- A pattern that matches is read past the tokens that leave no alternation open. -/
theorem reached_of_glyphs {ts : List Token} (hs : q.head? ≠ some (byte '*'))
    (ha : q.head? ≠ some (byte '?')) (hts : isOpenAfter false ts = false)
    (h : Reached (spelling ts ++ q)) : Reached q :=
  ((passable_glyphs hts).leadsTo hs ha).reach h

/-- So it comes to an alternation behind them. -/
theorem reached_word {ts : List Token} (hts : isOpenAfter false ts = false)
    (h : Reached (spelling ts ++ byte '{' :: q)) : Reached (byte '{' :: q) :=
  reached_of_glyphs (by rw [List.head?_cons]; decide) (by rw [List.head?_cons]; decide) hts h

theorem never_unclosed (h : findUnescaped? (byte '}') q = none) : ¬Reached (byte '{' :: q) := by
  rintro ⟨n, t, hm⟩
  obtain ⟨n, rfl⟩ := exists_budget hm
  rw [matchesAt_unclosed h] at hm
  cases hm

end

/-! ### Coming to a space inside an alternation -/

section

variable {w : List Token} {rest : List UInt8}

theorem space_of_literal {n k : Nat} {t : Place}
    (h : matchesAt n (some (k + 1)) (byte ' ' :: rest) t = true) : byte ' ' ∈ t.rest := by
  obtain ⟨n, rfl⟩ := exists_budget h
  change matchesAt (n + 1) (some (k + 1)) ((mark ' ' (by decide)).spelling ++ rest) t = true at h
  rw [matchesAt_glyph (by simp) (by decide) (fun _ => rfl), Place.eats_iff] at h
  obtain ⟨c, text, ht, hc, -⟩ := h
  obtain rfl := (Ascii.sameLetter_iff (by decide)).mp hc
  rw [ht]
  exact List.mem_cons_self

/-- With `room` bytes of its alternative left, `pat` matches only where the text has a space, and so
it is if the stars and question marks in front of `pat` have been passed over at once. -/
structure NeedsSpace (room : Nat) (pat : List UInt8) : Prop where
  matched : ∀ n t, matchesAt n (some room) pat t = true → byte ' ' ∈ t.rest
  skip : ∀ t r p u, skipStars true room pat t = some (r, p, u) → ∀ n,
    ∀ v ∈ Place.withinWord u.before u.rest, matchesAt n (some r) p v = true → byte ' ' ∈ t.rest

namespace NeedsSpace

variable {room : Nat} {pat : List UInt8}

theorem of_head (hs : pat.head? ≠ some (byte '*')) (ha : pat.head? ≠ some (byte '?'))
    (h : ∀ n t, matchesAt n (some room) pat t = true → byte ' ' ∈ t.rest) :
    NeedsSpace room pat where
  matched := h
  skip t r p u hk n v hv hm := by
    rw [skipStars_of_head hs ha] at hk
    cases hk
    obtain ⟨part, -, hpart⟩ := Place.exists_of_mem_withinWord hv
    rw [hpart]
    exact List.mem_append_right part (h n v hm)

theorem star (h : NeedsSpace room pat) : NeedsSpace (room + 1) (byte '*' :: pat) where
  matched n t hm := by
    obtain ⟨n, rfl⟩ := exists_budget hm
    obtain ⟨r, p, u, hk, v, hv, hm⟩ := (matchesAt_star_inWord _ _).mp hm
    exact h.skip t r p u hk n v hv hm
  skip t r p u hk := by
    rw [skipStars_star] at hk
    exact h.skip t r p u hk

/-- A token other than a star takes a byte, and the space comes later. -/
theorem matched_token {tok : Token} (hs : tok ≠ .star) (h : NeedsSpace (room + 1) pat) (n : Nat)
    (t : Place) (hm : matchesAt n (some (tok.spelling.length + (room + 1))) (tok.spelling ++ pat) t =
      true) : byte ' ' ∈ t.rest := by
  obtain ⟨n, rfl⟩ := exists_budget hm
  rw [matchesAt_token (by simp) hs (fun _ => rfl), Place.eats_iff] at hm
  obtain ⟨c, text, ht, -, hm⟩ := hm
  rw [Option.map_some, Nat.add_sub_cancel_left] at hm
  rw [ht]
  exact List.mem_cons_of_mem c (h.matched _ _ hm)

theorem any (h : NeedsSpace (room + 1) pat) : NeedsSpace (room + 1 + 1) (byte '?' :: pat) where
  matched n t hm := by
    rw [Nat.add_comm (room + 1) 1] at hm
    exact h.matched_token (show Token.any ≠ .star from nofun) n t hm
  skip t r p u hk n v hv hm := by
    rw [skipStars_any] at hk
    split at hk
    · cases hk
    · next c more ht =>
      split at hk
      · cases hk
      · rw [ht]
        exact List.mem_cons_of_mem c (h.skip _ r p u hk n v hv hm)

theorem token {tok : Token} (hw : tok.isWild = false) (h : NeedsSpace (room + 1) pat) :
    NeedsSpace (tok.spelling.length + (room + 1)) (tok.spelling ++ pat) :=
  of_head (head?_of_not_wild hw pat).1 (head?_of_not_wild hw pat).2 (h.matched_token (ne_star hw))

end NeedsSpace

/-- Inside an alternation the tokens in front of a space leave it to the text to have one. -/
theorem needsSpace_of_tokens (w : List Token) (k : Nat) :
    NeedsSpace ((spelling w).length + (k + 1)) (spelling w ++ byte ' ' :: rest) := by
  induction w with
  | nil =>
      rw [spelling_nil, List.length_nil, Nat.zero_add, List.nil_append]
      exact .of_head (by simp; decide) (by simp; decide) fun n t => space_of_literal
  | cons tok w ih =>
      rw [spelling_cons, List.length_append, List.append_assoc, Nat.add_assoc]
      cases hw : tok.isWild with
      | false => exact ih.token hw
      | true =>
          cases tok with
          | star =>
              rw [Token.spelling_star, List.length_singleton, Nat.add_comm 1]
              exact ih.star
          | any =>
              rw [Token.spelling_any, List.length_singleton, Nat.add_comm 1]
              exact ih.any
          | ofClass | lit => cases hw

end

end ExprEngine.Glob
