import ExprEngine.Pattern.Glob.Check
import ExprEngine.Pattern.Glob.Matcher
import ExprEngine.Pattern.Regex.Parser
import ExprEngine.Pattern.Regex.Matcher

/-!
# Patterns

The two pattern languages behind one interface: globs for the matching operators, which have to
match the whole subject, and regular expressions for `regmatch`, which look for the leftmost match.

A regular expression ignores case unless it holds an ASCII capital that no backslash escapes; its
dot matches line feeds too.
-/

namespace ExprEngine

/-- A match: the subject in three parts, and the groups, of which some may have taken no part. -/
structure Found where
  left : String
  whole : String
  right : String
  groups : List (Option String) := []
deriving DecidableEq

namespace Found

/-- The text that was searched. -/
def subject (m : Found) : String :=
  m.left ++ m.whole ++ m.right

/-- The `n`th group, the whole match for zero. -/
def group? (m : Found) (n : Nat) : Option String :=
  match n with
  | 0 => some m.whole
  | n + 1 => (m.groups[n]?).join

/-- One more than the number of the last group that took part. -/
def count (m : Found) : Nat :=
  (m.groups.reverse.dropWhile Option.isNone).length + 1

end Found

/-- Why a pattern is refused. -/
inductive PatternError where
  | glob (e : Glob.Malformed)
  | regex
deriving DecidableEq

/-- The text of the refusal. -/
def PatternError.message : PatternError → String
  | .glob e => "glob error: " ++ e.message
  | .regex => "regexp error"

namespace Glob

/-- The bytes of a text. -/
def bytes (s : String) : List UInt8 :=
  s.toUTF8.toList

/-- The reason to refuse a glob, if there is one. -/
def malformed? (pattern : String) : Option Malformed :=
  check (bytes pattern)

/-- The glob matches the whole text. -/
def matchesText (pattern text : String) : Bool :=
  isMatch (bytes pattern) (bytes text)

end Glob

/-- A pattern that was accepted. -/
inductive Pattern where
  | glob (source : String)
  | regex (tree : Regex.Tree)

namespace Pattern

/-- An accepted glob. -/
def glob? (source : String) : Except PatternError Pattern :=
  match Glob.malformed? source with
  | some e => .error (.glob e)
  | none => .ok (.glob source)

/-- An ASCII capital stands in the text without a backslash before it. -/
def hasCapital : List Char → Bool
  | [] => false
  | '\\' :: _ :: rest => hasCapital rest
  | c :: rest => c.isUpper || hasCapital rest

/-- An accepted regular expression. -/
def regex? (source : String) : Except PatternError Pattern :=
  let cs := source.toList
  match Regex.parse? { caseless := !hasCapital cs, dotAll := true } cs with
  | some tree => .ok (.regex tree)
  | none => .error .regex

/-- The match of a pattern in a text. -/
def find? (p : Pattern) (text : String) : Option Found :=
  match p with
  | .glob source => if Glob.matchesText source text then some ⟨"", text, "", []⟩ else none
  | .regex tree => do
    let cs := text.toList
    let part (span : Nat × Nat) := String.ofList ((cs.drop span.1).take (span.2 - span.1))
    let (whole, groups) ← tree.find? cs
    return {
      left := part (0, whole.1)
      whole := part whole
      right := part (whole.2, cs.length)
      groups := groups.map (·.map part) }

/-- The pattern matches the text. -/
def isMatch (p : Pattern) (text : String) : Bool :=
  (p.find? text).isSome

end Pattern

end ExprEngine
