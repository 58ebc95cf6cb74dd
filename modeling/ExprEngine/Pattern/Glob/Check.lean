import ExprEngine.Pattern.Glob.Class

/-!
# Malformed globs

A glob is refused if a class or an alternation is not closed, if an alternation stands inside
another, or if what stands next to or inside an alternation can never match, because an alternation
takes a whole word.
-/

namespace ExprEngine.Glob

/-- Why a glob is refused. -/
inductive Malformed where
  | unclosedClass
  | unclosedWord
  | nestedWord
  | beforeWord (b : UInt8)
  | afterWord (b : UInt8)
  | spaceInWord
deriving DecidableEq

/-- The text of the refusal. -/
def Malformed.message : Malformed → String
  | .unclosedClass => "unmatched '['"
  | .unclosedWord => "unmatched '\x7b'"
  | .nestedWord => "nested '\x7b'"
  | .beforeWord b => "'" ++ String.singleton (Char.ofNat b.toNat) ++ "' before '\x7b' can never match"
  | .afterWord b => "'" ++ String.singleton (Char.ofNat b.toNat) ++ "' after '\x7d' can never match"
  | .spaceInWord => "space inside '\x7b...\x7d' can never match"

/-- What may stand before an alternation, at the end of a word or where a word may end. -/
def mayPrecedeWord (b : UInt8) : Bool :=
  b == byte ' ' || b == byte '*' || b == byte '?' || b == byte ']'

/-- What may stand after an alternation. -/
def mayFollowWord (b : UInt8) : Bool :=
  b == byte ' ' || b == byte '*' || b == byte '?' || b == byte '['

/-- The first fault of a pattern from here on, after the byte `before`, inside an alternation or
not. -/
def firstFault (inWord : Bool) (before : Option UInt8) (cs : List UInt8) : Option Malformed :=
  match cs with
  | [] => if inWord then some .unclosedWord else none
  | b :: rest =>
    if b = byte '\\' then firstFault inWord rest.head? (rest.drop 1)
    else if b = byte '[' then
      match findUnescaped? (byte ']') cs with
      | some n => firstFault inWord cs[n]? (rest.drop n)
      | none => some .unclosedClass
    else if b = byte '{' then
      if inWord then some .nestedWord
      else match before.filter (!mayPrecedeWord ·) with
        | some c => some (.beforeWord c)
        | none => firstFault true (some b) rest
    else if b = byte '}' then
      match rest.head?.filter (!mayFollowWord ·) with
      | some c => some (.afterWord c)
      | none => firstFault false (some b) rest
    else if b = byte ' ' ∧ inWord then some .spaceInWord
    else firstFault inWord (some b) rest
termination_by cs.length
decreasing_by all_goals simp only [List.length_cons, List.length_drop]; omega

/-- The reason to refuse a pattern, if there is one. -/
def check (pattern : List UInt8) : Option Malformed :=
  firstFault false none pattern

end ExprEngine.Glob
