import ExprEngine.Builtin.Table
import ExprEngine.Number.Literal

/-!
# Errors and notes of the compiler

Why a source is no expression, with the place of the offending text, and what the compiler remarks
on sources that are legal but doubtful.
-/

namespace ExprEngine

/-- A stretch of the source, in bytes: from `start` up to `stop`. -/
structure Span where
  start : Nat
  stop : Nat
deriving DecidableEq

/-- The least stretch that covers two. -/
def Span.join (a b : Span) : Span :=
  ⟨min a.start b.start, max a.stop b.stop⟩

/-- What the grammar asks for at some place. -/
inductive Expected where
  | operand
  | endOfExpression
  | elseBranch
  | closingParenthesis
  | closingBracket
  | argumentEnd
deriving DecidableEq

/-- How an expectation is worded. -/
def Expected.text : Expected → String
  | .operand => "operand"
  | .endOfExpression => "end of expression"
  | .elseBranch => "':' after '?...'"
  | .closingParenthesis => "')' after '(...'"
  | .closingBracket => "operator or ']'"
  | .argumentEnd => "',' or ')' after function argument"

/-- Why a source is no expression. -/
inductive CompileCause where
  /-- Something else stands where something was expected; nothing at the end of the source. -/
  | expected (what : Expected) (found : Option String)
  | calleeNotName
  | notFunction (command : String)
  | argumentCount (function : Builtin) (found : Nat)
  | commandArgumentCount (command : String)
  | number (e : NumberError)
  | unclosedQuote (quote : Char)
  | unclosedExpression
  | unclosedCommand
  | unclosedName
  /-- A substitution is not closed where it should be, but goes on with a character or ends. -/
  | badSubstitution (found : Option Char)
  | strayExcept
deriving DecidableEq

/-- The complaint about a number of arguments that the function does not take. -/
def Builtin.arityMessage (b : Builtin) (found : Nat) : String :=
  b.name ++ ": found " ++ toString found ++ " arguments, expected " ++
    match b.arity with
    | (min, some max) =>
      if min = max then toString max else "between " ++ toString min ++ " and " ++ toString max
    | (min, none) => "at least " ++ toString min

/-- How a cause is worded. -/
def CompileCause.message : CompileCause → String
  | .expected what found =>
    "expression syntax error: expected " ++ what.text ++ ", found " ++
      (match found with
        | some text => "'" ++ text ++ "'"
        | none => "end of body") ++ "."
  | .calleeNotName => "function name must be an identifier."
  | .notFunction command => command ++ ": not a function"
  | .argumentCount function found => function.arityMessage found
  | .commandArgumentCount command =>
    command ++ ": command called as function must have 0 or 1 argument"
  | .number e => e.message
  | .unclosedQuote quote => "unmatched " ++ String.singleton quote ++ " in string literal"
  | .unclosedExpression => "unmatched $["
  | .unclosedCommand => "unmatched ("
  | .unclosedName => "unmatched $\x7b"
  | .badSubstitution none => "unmatched \x7b or bad substitution"
  | .badSubstitution (some c) => "unmatched \x7b or illegal character '" ++ String.singleton c ++ "'"
  | .strayExcept => "illegal character '-' in substitution"

/-- Why a source is no expression, and where. -/
structure CompileError where
  cause : CompileCause
  span : Span
deriving DecidableEq

/-- The text of the error. -/
def CompileError.message (e : CompileError) : String :=
  e.cause.message

/-- What the compiler may remark on a legal source.  Whether it does depends on the session. -/
inductive Note where
  /-- An expression in brackets behind a dollar sign. -/
  | bracketed
  /-- A substitution behind a percent sign: as written, and without its braces. -/
  | percent (written inner : String)
  /-- A name right behind a division sign. -/
  | afterSlash (name : String)
  /-- A backslash before a character that needs none, inside some quotes. -/
  | needlessEscape (quote escaped : Char)
deriving DecidableEq

/-- How a remark is worded. -/
def Note.message : Note → String
  | .bracketed =>
    "$[...] substitution in expression is legal, but redundant.  Try using (...) instead."
  | .percent written inner =>
    "\"%" ++ written ++ "\" substitution in expression is legal, but can be confusing.  " ++
      "Try using \"\x7b" ++ inner ++ "\x7d\" instead."
  | .afterSlash name => "possibly missing '%;' or ')' before /" ++ name
  | .needlessEscape quote escaped =>
    let e := String.singleton escaped
    "the only legal escapes within this quoted string are \\\\ and \\" ++ String.singleton quote ++
      ".  \\\\" ++ e ++ " is the correct way to write a literal \\" ++ e ++
      " inside a quoted string."

end ExprEngine
