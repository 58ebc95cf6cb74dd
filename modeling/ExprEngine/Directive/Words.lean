import ExprEngine.Text.Ascii

/-!
# Words of a directive

A directive's arguments are separated by blanks.  A double quote takes the blanks up to the next one
into the word; between quotes a backslash takes the next character as it is.  Quotes may start and
end inside a word, and an empty word is none.
-/

namespace ExprEngine.Directive

/-- The word that has been collected, last character first, if it is not empty. -/
def collected (current : List Char) : List String :=
  if current.isEmpty then [] else [String.ofList current.reverse]

/-- The words of a text that goes on, inside quotes or not, after the characters of a word. -/
def wordsFrom (quoted : Bool) (current : List Char) : List Char → List String
  | [] => collected current
  | ['\\'] => if quoted then collected current else collected ('\\' :: current)
  | c :: d :: rest =>
    if c = '"' then wordsFrom (!quoted) current (d :: rest)
    else if c = '\\' ∧ quoted then wordsFrom quoted (d :: current) rest
    else if Ascii.isBlank c ∧ !quoted then collected current ++ wordsFrom false [] (d :: rest)
    else wordsFrom quoted (c :: current) (d :: rest)
  | [c] =>
    if c = '"' ∨ (Ascii.isBlank c ∧ !quoted) then collected current else collected (c :: current)

/-- The words of a text. -/
def words (cs : List Char) : List String :=
  wordsFrom false [] cs

end ExprEngine.Directive
