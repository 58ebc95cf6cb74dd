import ExprEngine.Pattern.Glob.Class

/-!
# Matching globs

| pattern  | matches                                                              |
|----------|----------------------------------------------------------------------|
| `*`      | any run of bytes, without spaces inside an alternation               |
| `?`      | one byte, no space inside an alternation                             |
| `[…]`    | a byte of the class                                                  |
| `{a\|b}` | one whole word that one of the alternatives matches                  |
| `\x`     | the byte `x`                                                         |
| other    | itself                                                               |

The whole text has to match.  Bytes compare without regard to the case of ASCII letters.  Stars and
alternatives nest: each nesting takes one from a budget, and a match that needs more than the budget
is given up.

Every step goes on with a shorter pattern, which is why matching ends.
-/

namespace ExprEngine.Glob

/-- Nesting of stars and alternatives after which a match is given up. -/
abbrev budget : Nat := 256

/-- A place in the text: the byte before it, if any, and the bytes from it on. -/
structure Place where
  before : Option UInt8
  rest : List UInt8
deriving DecidableEq

namespace Place

/-- A word may start here: at the start of the text and after a space. -/
def startsWord (t : Place) : Bool :=
  match t.before with
  | none => true
  | some b => b == byte ' '

/-- A word may end here: at the end of the text and before a space. -/
def endsWord (t : Place) : Bool :=
  match t.rest with
  | [] => true
  | b :: _ => b == byte ' '

/-- This place and all later ones, the end of the text included. -/
def onward (before : Option UInt8) : List UInt8 → List Place
  | [] => [⟨before, []⟩]
  | b :: rest => ⟨before, b :: rest⟩ :: onward (some b) rest

/-- This place and all later ones up to the end of the word. -/
def withinWord (before : Option UInt8) : List UInt8 → List Place
  | [] => [⟨before, []⟩]
  | b :: rest =>
    if b = byte ' ' then [⟨before, b :: rest⟩] else ⟨before, b :: rest⟩ :: withinWord (some b) rest

/-- The end of the word that this place lies in. -/
def wordEnd (before : Option UInt8) : List UInt8 → Place
  | [] => ⟨before, []⟩
  | b :: rest => if b = byte ' ' then ⟨before, b :: rest⟩ else wordEnd (some b) rest

end Place

/-- The stars and question marks in front of a pattern, of which at most `room` bytes may be taken:
what follows them and the place after one byte for each question mark. -/
def skipStars (inWord : Bool) (room : Nat) (pat : List UInt8) (t : Place) :
    Option (Nat × List UInt8 × Place) :=
  match room, pat with
  | room + 1, b :: rest =>
    if b = byte '*' then skipStars inWord room rest t
    else if b = byte '?' then
      match t.rest with
      | [] => none
      | c :: more => if inWord && c == byte ' ' then none else skipStars inWord room rest ⟨some c, more⟩
    else some (room + 1, b :: rest, t)
  | room, pat => some (room, pat, t)

theorem skipStars_length {inWord : Bool} {room r : Nat} {pat p : List UInt8} {t u : Place}
    (h : skipStars inWord room pat t = some (r, p, u)) : p.length ≤ pat.length := by
  fun_induction skipStars inWord room pat t <;> simp_all <;> omega

/-- A byte with which the rest of the text may start where a star ends, for a pattern that goes on
as `pat`: bytes that cannot match are passed over before anything is tried. -/
def mayStart (pat : List UInt8) (t : Place) : Bool :=
  match pat, t.rest with
  | [], _ => true
  | b :: _, [] => b == byte '{' && t.startsWord
  | b :: more, c :: _ =>
    if b = byte '{' then t.startsWord
    else if b = byte '[' then true
    else if b = byte '\\' then Ascii.sameLetter c (more.headD b)
    else Ascii.sameLetter c b

mutual
/-- The pattern matches the text from a place on.  Inside an alternation `word` is the number of
bytes left of the alternative, and the match has to end with the word. -/
def matchesAt (fuel : Nat) (word : Option Nat) (pat : List UInt8) (t : Place) : Bool :=
  match fuel with
  | 0 => false
  | fuel + 1 =>
    match pat with
    | [] => if word.isSome then t.endsWord else t.rest.isEmpty
    | b :: rest =>
      if word = some 0 then t.endsWord
      else if b = byte '\\' then
        match rest, t.rest with
        | [], text => text.isEmpty
        | _ :: _, [] => false
        | lit :: rest, c :: text =>
          Ascii.sameLetter c lit && matchesAt (fuel + 1) (word.map (· - 2)) rest ⟨some c, text⟩
      else if b = byte '?' then
        match t.rest with
        | [] => false
        | c :: text =>
          !(word.isSome && c == byte ' ') && matchesAt (fuel + 1) (word.map (· - 1)) rest ⟨some c, text⟩
      else if b = byte '*' then
        match _h : skipStars word.isSome (word.getD rest.length.succ - 1) rest t with
        | none => false
        | some (room, pat, t) =>
          if word.isSome then
            (Place.withinWord t.before t.rest).any fun u => matchesAt fuel (some room) pat u
          else
            pat.isEmpty || (Place.onward t.before t.rest).any fun u =>
              mayStart pat u && matchesAt fuel none pat u
      else if b = byte '[' then
        match t.rest with
        | [] => false
        | c :: text =>
          if word.isSome && c == byte ' ' then false
          else match classUsed? c rest with
            | none => false
            | some used =>
              matchesAt (fuel + 1) (word.map (· - (used + 1))) (rest.drop used) ⟨some c, text⟩
      else if b = byte '{' ∧ word.isNone then
        t.startsWord &&
          match findUnescaped? (byte '}') (b :: rest) with
          | none => false
          | some close =>
            anyAlternative fuel (close - 1) rest t &&
              matchesAt (fuel + 1) none (rest.drop close) (Place.wordEnd t.before t.rest)
      else
        match t.rest with
        | [] => false
        | c :: text =>
          Ascii.sameLetter c b && matchesAt (fuel + 1) (word.map (· - 1)) rest ⟨some c, text⟩
termination_by 2 * pat.length
decreasing_by
  all_goals simp only [List.length_cons, List.length_drop]
  all_goals try omega
  · simp only [wfParam]; omega
  · have := skipStars_length _h; omega
  · have := skipStars_length _h; omega

/-- One of the alternatives in the first `room` bytes of the pattern matches the word here. -/
def anyAlternative (fuel room : Nat) (pat : List UInt8) (t : Place) : Bool :=
  match _h : findUnescaped? (byte '|') (pat.take room) with
  | none => matchesAt fuel (some room) pat t
  | some bar =>
    matchesAt fuel (some bar) pat t || anyAlternative fuel (room - (bar + 1)) (pat.drop (bar + 1)) t
termination_by 2 * pat.length + 1
decreasing_by
  · omega
  · omega
  · have := pos_of_findUnescaped? _h
    simp only [List.length_take, List.length_drop] at *
    omega
end

/-- The pattern matches the whole text. -/
def isMatch (pattern text : List UInt8) : Bool :=
  matchesAt budget none pattern ⟨none, text⟩

end ExprEngine.Glob
