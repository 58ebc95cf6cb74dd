/-!
# Positions in a text

The string functions of the language count characters; source spans count UTF-8 bytes.  This module
holds both measures, the slices and searches by character, and the order of texts.

Main statements: a slice that starts where another ends continues it (`slice_append_slice`), and a
line that ends in a line feed is the first of the lines (`lines_append_newline`).
-/

namespace ExprEngine.Text

/-- Number of UTF-8 bytes of a text. -/
def byteSize (cs : List Char) : Nat :=
  cs.foldr (fun c n => c.utf8Size + n) 0

@[simp] theorem byteSize_nil : byteSize [] = 0 := rfl

@[simp] theorem byteSize_cons (c : Char) (cs : List Char) :
    byteSize (c :: cs) = c.utf8Size + byteSize cs := by
  simp [byteSize]

@[simp] theorem byteSize_append (a b : List Char) :
    byteSize (a ++ b) = byteSize a + byteSize b := by
  induction a with
  | nil => simp
  | cons c a ih => simp [ih, Nat.add_assoc]

/-- Byte offset of the `n`th character, or of the end if there are fewer. -/
def byteOffset (s : String) (n : Nat) : Nat :=
  byteSize (s.toList.take n)

/-- Up to `len` characters from the `start`th on; what is out of range is left out. -/
def slice (cs : List Char) (start len : Nat) : List Char :=
  (cs.drop start).take len

theorem slice_append_slice (cs : List Char) (n m : Nat) :
    slice cs 0 n ++ slice cs n m = slice cs 0 (n + m) := by
  simp [slice, List.take_add]

/-- The text between two byte offsets; nothing unless both lie on character boundaries, in order. -/
def between? (cs : List Char) (start stop : Nat) : Option (List Char) :=
  if stop < start then none
  else (dropBytes? cs start).bind (takeBytes? · (stop - start))
where
  /-- What follows the first `n` bytes. -/
  dropBytes? : List Char → Nat → Option (List Char)
    | cs, 0 => some cs
    | [], _ + 1 => none
    | c :: cs, n + 1 => if c.utf8Size ≤ n + 1 then dropBytes? cs (n + 1 - c.utf8Size) else none
  /-- The first `n` bytes. -/
  takeBytes? : List Char → Nat → Option (List Char)
    | _, 0 => some []
    | [], _ + 1 => none
    | c :: cs, n + 1 =>
      if c.utf8Size ≤ n + 1 then (takeBytes? cs (n + 1 - c.utf8Size)).map (c :: ·) else none

/-- The order of texts by code point, the first difference deciding, a shorter text before its
extensions.  UTF-8 keeps this order, so it is also the order by bytes. -/
def order : List Char → List Char → Ordering
  | [], [] => .eq
  | [], _ :: _ => .lt
  | _ :: _, [] => .gt
  | a :: as, b :: bs => (compare a.val b.val).then (order as bs)

/-- Index, counted from `i`, of the first place where `needle` stands in `cs`. -/
def find? (needle : List Char) : (cs : List Char) → (i : Nat) → Option Nat
  | [], i => if needle.isEmpty then some i else none
  | c :: cs, i => if needle.isPrefixOf (c :: cs) then some i else find? needle cs (i + 1)

/-- Every occurrence of `old`, read from the left without overlap, replaced by `new`; an empty `old`
occurs nowhere. -/
def replace (old new : List Char) (cs : List Char) : List Char :=
  match cs with
  | [] => []
  | c :: cs =>
    if old ≠ [] ∧ old.isPrefixOf (c :: cs) then new ++ replace old new ((c :: cs).drop old.length)
    else c :: replace old new cs
termination_by cs.length
decreasing_by
  · rename_i h
    have : 0 < old.length := List.length_pos_iff.mpr h.1
    simp only [List.length_drop, List.length_cons]
    omega
  · simp

/-- The lines of a text, cut after each line feed, which is dropped.  A text that ends in a line
feed has no empty line after it; a carriage return stays, as every reader of lines trims them. -/
def lines : List Char → List (List Char)
  | [] => []
  | c :: cs =>
    if c = '\n' then [] :: lines cs
    else match lines cs with
      | [] => [[c]]
      | line :: rest => (c :: line) :: rest

theorem lines_append_newline (line cs : List Char) (h : '\n' ∉ line) :
    lines (line ++ '\n' :: cs) = line :: lines cs := by
  induction line with
  | nil => simp [lines]
  | cons c line ih =>
    simp only [List.mem_cons, not_or] at h
    simp [lines, ih h.2, Ne.symm h.1]

end ExprEngine.Text
