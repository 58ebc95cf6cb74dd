import ExprEngine.Grammar.Error
import ExprEngine.Text.Ascii
import ExprEngine.Text.Position

/-!
# Reading places in a source

A cursor stands between two characters of a source: it holds what follows, how many bytes went
before, and the remarks made so far.  Every reader returns a cursor that is not behind the one it
was given, which is why reading ends.
-/

namespace ExprEngine

/-- A place in a source that is being read. -/
structure Cursor where
  rest : List Char
  /-- Offset in bytes. -/
  pos : Nat := 0
  /-- What was remarked so far, the latest first. -/
  notes : List Note := []

/-- A source that was refused, with what was remarked before. -/
structure Rejection where
  error : CompileError
  notes : List Note

/-- Something that was read from a cursor on, and where reading goes on. -/
structure Parsed (α : Type) (c : Cursor) where
  value : α
  next : Cursor
  le : next.rest.length ≤ c.rest.length

/-- A cursor further on than another. -/
abbrev Cursor.Past (c : Cursor) := { d : Cursor // d.rest.length < c.rest.length }

/-- What was read further on, taken as read from an earlier cursor. -/
def Parsed.since {α : Type} {c d : Cursor} (h : d.rest.length ≤ c.rest.length) (p : Parsed α d) :
    Parsed α c :=
  ⟨p.value, p.next, Nat.le_trans p.le h⟩

namespace Cursor

/-- The cursor at the start of a source. -/
def ofString (source : String) : Cursor :=
  { rest := source.toList }

/-- The next character. -/
def peek? (c : Cursor) : Option Char :=
  c.rest.head?

/-- The cursor `n` characters further on. -/
def advance (c : Cursor) (n : Nat) : Cursor :=
  { c with rest := c.rest.drop n, pos := c.pos + Text.byteSize (c.rest.take n) }

@[simp] theorem length_advance (c : Cursor) (n : Nat) :
    (c.advance n).rest.length = c.rest.length - n := by
  simp [advance]

/-- The cursor behind a character, if that comes next. -/
def eat? (c : Cursor) (ch : Char) : Option c.Past :=
  match h : c.rest with
  | [] => none
  | d :: _ => if d = ch then some ⟨c.advance 1, by simp [h]⟩ else none

/-- What some reader makes of the text that follows, and the cursor behind the characters it
used. -/
def read? {α : Type} (c : Cursor) (reader : List Char → Option (α × Nat)) : Option (α × c.Past) :=
  match reader c.rest with
  | none => none
  | some (a, n) =>
    if h : 0 < n ∧ n ≤ c.rest.length then some (a, ⟨c.advance n, by simp; omega⟩) else none

/-- The characters that follow up to one that `p` does not hold of. -/
def takeWhile (c : Cursor) (p : Char → Bool) : List Char :=
  c.rest.takeWhile p

/-- The cursor in front of the first character that `p` does not hold of. -/
def skipWhile (c : Cursor) (p : Char → Bool) : Cursor :=
  c.advance (c.takeWhile p).length

theorem length_skipWhile_le (c : Cursor) (p : Char → Bool) :
    (c.skipWhile p).rest.length ≤ c.rest.length := by
  simp [skipWhile]

/-- The cursor behind the blanks that follow. -/
def pastBlanks (c : Cursor) : { d : Cursor // d.rest.length ≤ c.rest.length } :=
  ⟨c.skipWhile Ascii.isBlank, c.length_skipWhile_le _⟩

/-- The cursor at the end of the source. -/
def atEnd (c : Cursor) : Cursor :=
  c.advance c.rest.length

/-- The cursor with a remark more. -/
def note (c : Cursor) (n : Note) : Cursor :=
  { c with notes := n :: c.notes }

@[simp] theorem rest_note (c : Cursor) (n : Note) : (c.note n).rest = c.rest := rfl

/-- The place from a cursor up to a later one. -/
def spanTo (c d : Cursor) : Span :=
  ⟨c.pos, d.pos⟩

/-- The text from a cursor up to a later one. -/
def textTo (c d : Cursor) : String :=
  String.ofList (c.rest.take (c.rest.length - d.rest.length))

/-- The source is refused. -/
def refuse {α : Type} (c : Cursor) (cause : CompileCause) (span : Span) : Except Rejection α :=
  .error ⟨⟨cause, span⟩, c.notes⟩

/-- Number of characters that a complaint about the text shows: a word with the letter, digit, quote
or slash that it starts with, else one character. -/
def offendingLength : List Char → Nat
  | [] => 0
  | c :: rest =>
    if c.isAlphanum || Ascii.isQuote c || c == '/' then 1 + (rest.takeWhile Char.isAlphanum).length
    else 1

/-- The source is refused because something else was expected. -/
def unexpected {α : Type} (c : Cursor) (what : Expected) : Except Rejection α :=
  let d := c.advance (offendingLength c.rest)
  c.refuse (.expected what (if c.rest.isEmpty then none else some (c.textTo d))) (c.spanTo d)

end Cursor

end ExprEngine
