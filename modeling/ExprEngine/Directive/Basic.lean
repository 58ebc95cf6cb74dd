import ExprEngine.Directive.Words
import ExprEngine.Settings.Basic

/-!
# Directives

A directive is a line that sets a variable (`/set`, `/let`) or defines a macro (`/def`).  Here its
arguments are read; what is done with them is up to the reader of lines.
-/

namespace ExprEngine

/-- Why a directive is refused. -/
inductive DirectiveError where
  | noArgument
  | noValue (word : String)
  | noName
  | noBody
  | macroName (name : String)
  | setting (e : SettingError)
deriving DecidableEq

/-- The text of the error. -/
def DirectiveError.message : DirectiveError → String
  | .noArgument => "/set: requires an argument"
  | .noValue word => "/set: missing value for '" ++ word ++ "'"
  | .noName => "/set: variable name cannot be empty"
  | .noBody => "/def: expected name=body"
  | .macroName name => "/def: invalid macro name '" ++ name ++ "'"
  | .setting e => e.message

namespace Directive

/-- The name and the value among the words of a variable's setting: divided by the first `=` of the
first word, or else by the end of that word. -/
def settingOfWords : List String → Except DirectiveError (String × String)
  | [] => .error .noArgument
  | first :: more => do
    let (name, value) ← match Text.splitAtFirst (· == '=') first.toList with
      | some (name, value) =>
        pure (String.ofList name, " ".intercalate (String.ofList value :: more))
      | none => if more.isEmpty then throw (.noValue first) else pure (first, " ".intercalate more)
    if name.isEmpty then throw .noName else return (name, value)

/-- The name and the value in the arguments of a variable's setting. -/
def setting (args : List Char) : Except DirectiveError (String × String) :=
  settingOfWords (words args)

/-- The name and the body in the arguments of a macro's definition.  White space around both is
dropped; the name is made of letters, digits and underscores. -/
def definition (args : List Char) : Except DirectiveError (String × String) :=
  match Text.splitAtFirst (· == '=') args with
  | none => .error .noBody
  | some (name, body) =>
    let name := Text.trim name
    if name.isEmpty || !name.all Ascii.isWord then .error (.macroName (String.ofList name))
    else .ok (String.ofList name, String.ofList (Text.trim body))

end Directive

end ExprEngine
