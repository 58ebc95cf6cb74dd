import ExprEngine.Proofs.Grammar.Reading
import ExprEngine.Proofs.Grammar.Signs
import ExprEngine.Proofs.Program.Places
import Mathlib.Data.List.TakeWhile

/-!
# Blanks behind a source

A source is compared with itself in front of a row of blanks.  A reader of both finds the same up to
the end of the shorter one, and what it finds there it finds in front of the row.

* `Cursor.Longer`, `Cursor.Settled`: a place in the longer source, before and after blanks.
* `Grammar.Alike`: both are read alike, up to places, or refused alike.
* `CompileCause.Unfinished`: the complaints that blanks can change: something is open at the end.
* `Grammar.unexpected_alike`: what is not expected is refused alike.
-/

namespace ExprEngine

open Grammar

/-- Every character of the text is a blank. -/
def Blanks (cs : List Char) : Prop :=
  ∀ c ∈ cs, Ascii.isBlank c = true

theorem Blanks.ends {row : List Char} (h : Blanks row) : Text.Ends row :=
  .of_blanks h

/-! ### Places -/

namespace Cursor

variable {row : List Char} {c d : Cursor} {ch : Char}

/-- The second cursor stands where the first one does, with the row behind what is left to read. -/
structure Longer (row : List Char) (c d : Cursor) : Prop where
  rest : d.rest = c.rest ++ row
  notes : d.notes = c.notes

/-- The same behind blanks: at the end of the source there is no row left. -/
def Settled (row : List Char) (c d : Cursor) : Prop :=
  Longer (if c.rest = [] then [] else row) c d

/-- Behind the blanks that follow, the second cursor stands where the first one does. -/
def Aligned (row : List Char) (c d : Cursor) : Prop :=
  Settled row c.pastBlanks.val d.pastBlanks.val

/-- The same characters come next. -/
def Faces (c d : Cursor) : Prop :=
  ∀ ch, Text.isMark ch = true → (d.rest.head? = some ch ↔ c.rest.head? = some ch)

theorem Longer.faces (h : Longer row c d) (hrow : Text.Ends row) : Faces c d := fun ch hch => by
  rw [h.rest, hrow.head?_eq hch]

theorem Longer.advance (h : Longer row c d) {n : Nat} (hn : n ≤ c.rest.length) :
    Longer row (c.advance n) (d.advance n) where
  rest := by
    show d.rest.drop n = c.rest.drop n ++ row
    rw [h.rest, List.drop_append_of_le_length hn]
  notes := h.notes

theorem Longer.note (h : Longer row c d) (n : Note) : Longer row (c.note n) (d.note n) :=
  ⟨h.rest, congrArg (n :: ·) h.notes⟩

theorem Longer.textTo (h : Longer row c d) {e f : Cursor} (he : Longer row e f) :
    d.textTo f = c.textTo e := by
  rw [Cursor.textTo, Cursor.textTo, h.rest, he.rest, List.length_append, List.length_append,
    Nat.add_sub_add_right, List.take_append_of_le_length (Nat.sub_le _ _)]

/-- A scan that the row does not stop goes on to the end. -/
theorem Longer.settled_skipWhile {p : Char → Bool} (h : Longer row c d)
    (hp : ∀ ch ∈ row, p ch = true) : Settled row (c.skipWhile p) (d.skipWhile p) where
  rest := by
    rw [rest_skipWhile, rest_skipWhile, h.rest, List.dropWhile_append]
    by_cases hc : c.rest.dropWhile p = []
    · simp [hc, List.dropWhile_eq_nil_iff.mpr hp]
    · simp [hc]
  notes := h.notes

theorem Longer.aligned (h : Longer row c d) (hrow : Blanks row) : Aligned row c d :=
  h.settled_skipWhile hrow

/-- Blanks in front of the longer source are passed over. -/
theorem aligned_of_lead {lead : List Char} (hl : Blanks lead) (hrow : Blanks row)
    (hr : d.rest = lead ++ (c.rest ++ row)) (hn : d.notes = c.notes) : Aligned row c d where
  rest := by
    have h : Longer row c { d with rest := c.rest ++ row } := ⟨rfl, hn⟩
    have hd := (h.aligned hrow).rest
    rw [rest_pastBlanks] at hd
    rw [rest_pastBlanks, hr, List.dropWhile_append_of_pos hl, hd]
  notes := hn

namespace Settled

theorem longer (h : Settled row c d) (hc : c.rest ≠ []) : Longer row c d := by
  rwa [Settled, if_neg hc] at h

theorem rest_of_nil (h : Settled row c d) (hc : c.rest = []) : d.rest = [] := by
  have hr := Longer.rest h
  rwa [if_pos hc, List.append_nil, hc] at hr

theorem notes (h : Settled row c d) : d.notes = c.notes :=
  Longer.notes h

theorem head? (h : Settled row c d) : d.rest.head? = c.rest.head? := by
  by_cases hc : c.rest = []
  · rw [hc, h.rest_of_nil hc]
  · obtain ⟨ch, cs, hcs⟩ := List.exists_cons_of_ne_nil hc
    rw [(h.longer hc).rest, hcs]
    rfl

theorem faces (h : Settled row c d) : Faces c d := fun ch _ => by
  rw [h.head?]

theorem isEmpty (h : Settled row c d) : d.rest.isEmpty = c.rest.isEmpty := by
  rw [Bool.eq_iff_iff, List.isEmpty_iff, List.isEmpty_iff, ← List.head?_eq_none_iff, h.head?,
    List.head?_eq_none_iff]

theorem aligned (h : Settled row c d) (hrow : Blanks row) : Aligned row c d := by
  by_cases hc : c.rest = []
  · have hd := h.rest_of_nil hc
    refine ⟨?_, h.notes⟩
    rw [rest_pastBlanks, rest_pastBlanks, hc, hd]
    rfl
  · exact (h.longer hc).aligned hrow

theorem advance_one (h : Settled row c d) (hh : c.rest.head? = some ch) :
    Longer row (c.advance 1) (d.advance 1) :=
  have hc : c.rest ≠ [] := List.ne_nil_of_mem (List.mem_of_head? hh)
  (h.longer hc).advance (List.length_pos_iff.mpr hc)

end Settled

theorem Longer.advance_one (h : Longer row c d) (hh : c.rest.head? = some ch) :
    Longer row (c.advance 1) (d.advance 1) :=
  h.advance (List.length_pos_of_mem (List.mem_of_head? hh))

/-- The character is there for both cursors, or for neither. -/
theorem Faces.eat? (h : Faces c d) (ch : Char) (hch : Text.isMark ch = true) :
    (c.eat? ch = none ∧ d.eat? ch = none) ∨
      (c.rest.head? = some ch ∧ ∃ hc hd, c.eat? ch = some ⟨c.advance 1, hc⟩ ∧
        d.eat? ch = some ⟨d.advance 1, hd⟩) := by
  by_cases hh : c.rest.head? = some ch
  · obtain ⟨hc, he⟩ := eat?_of_head? hh
    obtain ⟨hd, hf⟩ := eat?_of_head? ((h ch hch).mpr hh)
    exact .inr ⟨hh, hc, hd, he, hf⟩
  · exact .inl ⟨eat?_of_ne hh, eat?_of_ne (mt (h ch hch).mp hh)⟩

/-- A sign is there for both cursors, or for neither. -/
theorem Settled.read? {α : Type} {reader : List Char → Option (α × Nat)}
    (h : Settled row c d) (hrow : Text.Ends row) (hr : Text.MarksOnly reader)
    (hlen : ∀ {cs a n}, reader cs = some (a, n) → 0 < n ∧ n ≤ cs.length) :
    (c.read? reader = none ∧ d.read? reader = none) ∨
      ∃ a n hc hd, c.read? reader = some (a, ⟨c.advance n, hc⟩) ∧
        d.read? reader = some (a, ⟨d.advance n, hd⟩) ∧
        Longer row (c.advance n) (d.advance n) := by
  have hends : Text.Ends (if c.rest = [] then [] else row) := by
    split
    · exact fun _ => nofun
    · exact hrow
  have hd : reader d.rest = reader c.rest := by rw [Longer.rest h, hr.append hends]
  cases hx : reader c.rest with
  | none => exact .inl ⟨read?_none hx, read?_none (hd.trans hx)⟩
  | some x =>
      obtain ⟨a, n⟩ := x
      obtain ⟨hn, hle⟩ := hlen hx
      have hl : Longer row (c.advance n) (d.advance n) :=
        (h.longer (List.length_pos_iff.mp (by omega))).advance hle
      have hled : n ≤ d.rest.length := by
        rw [Longer.rest h, List.length_append]
        omega
      refine .inr ⟨a, n, by simp; omega, by simp; omega, ?_, ?_, hl⟩
      · simp [Cursor.read?, hx, hn, hle]
      · simp [Cursor.read?, hd.trans hx, hn, hled]

/-- A scan that stops at blanks stops at the same place. -/
theorem Longer.skipWhile {p : Char → Bool} (h : Longer row c d)
    (hp : ∀ ch, row.head? = some ch → p ch = false) :
    d.takeWhile p = c.takeWhile p ∧ Longer row (c.skipWhile p) (d.skipWhile p) := by
  obtain ⟨ht, hd⟩ := Text.takeWhile_append_of_head hp c.rest
  refine ⟨by rw [Cursor.takeWhile, h.rest, ht]; rfl, ?_, h.notes⟩
  rw [rest_skipWhile, rest_skipWhile, h.rest, hd]

/-- Positions are as far apart, unless nothing but blanks is left. -/
theorem Longer.pos_pastBlanks (h : Longer row c d) (hc : c.pastBlanks.val.rest ≠ []) :
    (d.pastBlanks.val.pos == d.pos) = (c.pastBlanks.val.pos == c.pos) := by
  rw [rest_pastBlanks] at hc
  -- something other than blanks is left, so the blanks in front do not reach the row
  have hlt : (c.rest.takeWhile Ascii.isBlank).length ≠ c.rest.length := fun hl => by
    have happ := congrArg List.length (List.takeWhile_append_dropWhile (p := Ascii.isBlank)
      (l := c.rest))
    rw [List.length_append] at happ
    exact hc (List.length_eq_zero_iff.mp (by omega))
  have ht : d.takeWhile Ascii.isBlank = c.takeWhile Ascii.isBlank := by
    rw [Cursor.takeWhile, h.rest, List.takeWhile_append, if_neg hlt]
    rfl
  have hle : (c.takeWhile Ascii.isBlank).length ≤ c.rest.length :=
    (List.takeWhile_prefix _).length_le
  have hpos : ∀ c : Cursor, (c.pastBlanks.val.pos == c.pos) =
      (Text.byteSize (c.rest.take (c.takeWhile Ascii.isBlank).length) == 0) := by
    intro c
    show (c.pos + _ == c.pos) = _
    rw [Bool.eq_iff_iff, beq_iff_eq, beq_iff_eq]
    omega
  rw [hpos, hpos, ht, h.rest, List.take_append_of_le_length hle]

end Cursor

/-! ### Readings -/

/-- The expressions are the same but for the places of their parts. -/
def Expr.Same (e f : Expr) : Prop :=
  e.unplaced = f.unplaced

/-- A complaint that something is open at the end of the source. -/
inductive CompileCause.Unfinished : CompileCause → Prop
  | quote (q : Char) : Unfinished (.unclosedQuote q)
  | brace : Unfinished (.badSubstitution none)

/-- The source that goes on with the row is refused for the same reason; or the other source is not
finished, and goes on with the row. -/
inductive Rejection.Like (row : List Char) (r s : Rejection) : Prop
  | same : s.error.cause = r.error.cause → s.notes = r.notes → Like row r s
  | unfinished (more : List Note) : row ≠ [] → r.error.cause.Unfinished →
    (∀ n ∈ more, ∃ q e, n = .needlessEscape q e) → s.notes = more ++ r.notes → Like row r s

namespace Grammar

/-- Two sources are read alike from their cursors on: the same is found, and reading goes on at
cursors that correspond; or both sources are refused. -/
inductive Alike (row : List Char) {α : Type} {c d : Cursor} (same : α → α → Prop)
    (rel : Cursor → Cursor → Prop) :
    Except Rejection (Parsed α c) → Except Rejection (Parsed α d) → Prop
  | ok {p q} : same p.value q.value → rel p.next q.next → Alike row same rel (.ok p) (.ok q)
  | error {r s} : Rejection.Like row r s → Alike row same rel (.error r) (.error s)

variable {row : List Char} {α β : Type} {c d c' d' : Cursor} {same : α → α → Prop}
  {same' : β → β → Prop} {rel rel' : Cursor → Cursor → Prop}

namespace Alike

theorem bind {x : Except Rejection (Parsed α c)} {y : Except Rejection (Parsed α d)}
    {f : Parsed α c → Except Rejection (Parsed β c')}
    {g : Parsed α d → Except Rejection (Parsed β d')} (h : Alike row same rel x y)
    (hf : ∀ p q, same p.value q.value → rel p.next q.next → Alike row same' rel' (f p) (g q)) :
    Alike row same' rel' (x >>= f) (y >>= g) := by
  cases h with
  | ok hv hn => exact hf _ _ hv hn
  | error h => exact .error h

theorem since {x : Except Rejection (Parsed α c')} {y : Except Rejection (Parsed α d')}
    (hc : c'.rest.length ≤ c.rest.length) (hd : d'.rest.length ≤ d.rest.length)
    (h : Alike row same rel x y) :
    Alike row same rel (x >>= fun p => pure (p.since hc) : Except Rejection (Parsed α c))
      (y >>= fun p => pure (p.since hd) : Except Rejection (Parsed α d)) := by
  cases h with
  | ok hv hn => exact .ok hv hn
  | error h => exact .error h

theorem refuse {e f : Cursor} (hn : f.notes = e.notes) (cause : CompileCause) (s t : Span) :
    Alike row same rel (e.refuse cause s : Except Rejection (Parsed α c))
      (f.refuse cause t : Except Rejection (Parsed α d)) :=
  .error (.same rfl hn)

end Alike

theorem offendingLength_append (hrow : Text.Ends row) {cs : List Char} (hcs : cs ≠ []) :
    Cursor.offendingLength (cs ++ row) = Cursor.offendingLength cs := by
  cases cs with
  | nil => exact absurd rfl hcs
  | cons ch cs =>
      rw [List.cons_append, Cursor.offendingLength, Cursor.offendingLength,
        (Text.isAlphanum_ofMarks.takeWhile_append hrow cs).1]

theorem offendingLength_le (cs : List Char) : Cursor.offendingLength cs ≤ cs.length := by
  cases cs with
  | nil => exact Nat.le_refl _
  | cons ch cs =>
      have hle : (cs.takeWhile Char.isAlphanum).length ≤ cs.length :=
        (List.takeWhile_prefix _).length_le
      rw [Cursor.offendingLength, List.length_cons]
      split <;> omega

/-- What was found in place of something else is the same. -/
theorem unexpected_like (hrow : Text.Ends row) {e f : Cursor} (h : e.Settled row f)
    (what : Expected) :
    ∃ r s, Rejection.Like row r s ∧ (∀ α, (e.unexpected what : Except Rejection α) = .error r) ∧
      ∀ α, (f.unexpected what : Except Rejection α) = .error s := by
  refine ⟨_, _, .same ?_ h.notes, fun _ => rfl, fun _ => rfl⟩
  show CompileCause.expected what _ = .expected what _
  rw [h.isEmpty]
  split
  · rfl
  · next he =>
    have hne : e.rest ≠ [] := fun hc => he (List.isEmpty_iff.mpr hc)
    have hl := h.longer hne
    have hoff : Cursor.offendingLength f.rest = Cursor.offendingLength e.rest := by
      rw [hl.rest, offendingLength_append hrow hne]
    rw [hoff, hl.textTo (hl.advance (offendingLength_le e.rest))]

theorem unexpected_alike (hrow : Text.Ends row) {e f : Cursor} (h : e.Settled row f)
    (what : Expected) :
    Alike row same rel (e.unexpected what : Except Rejection (Parsed α c))
      (f.unexpected what : Except Rejection (Parsed α d)) := by
  obtain ⟨r, s, hlike, hr, hs⟩ := unexpected_like hrow h what
  rw [hr, hs]
  exact .error hlike

end Grammar

end ExprEngine
