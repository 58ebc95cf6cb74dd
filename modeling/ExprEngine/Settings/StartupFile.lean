import ExprEngine.Directive.Basic
import ExprEngine.Text.Position

/-!
# Startup files

A startup file holds settings, variables and macros, one directive a line.  Lines that start with
`;` are comments; other lines are skipped, so that a larger script may be shared.  A line that is
refused changes nothing and is reported with its number.
-/

namespace ExprEngine

/-- A directive that was refused, and the number of its line, from one. -/
structure StartupError where
  line : Nat
  error : DirectiveError
deriving DecidableEq

/-- The text of the error. -/
def StartupError.message (e : StartupError) : String :=
  "line " ++ toString e.line ++ ": " ++ e.error.message

/-- What a startup file holds, each in the order of the lines. -/
structure Startup where
  settings : Settings := {}
  globals : List (String × String) := []
  macros : List (String × String) := []
  errors : List StartupError := []

namespace Startup

/-- What a file holds with a directive more. -/
def apply (s : Startup) (directive : String) (args : List Char) : Except DirectiveError Startup :=
  match directive with
  | "set" => do
    let (name, value) ← Directive.setting args
    match ← (s.settings.set name value).mapError .setting with
    | some settings => return { s with settings }
    | none => return { s with globals := s.globals ++ [(name, value)] }
  | "def" => do return { s with macros := s.macros ++ [← Directive.definition args] }
  | _ => return s

/-- The word and the arguments of a directive, if the line is one. -/
def directive? (line : List Char) : Option (String × List Char) :=
  match Text.trim line with
  | '/' :: rest =>
    let (word, args) := (Text.splitAtFirst Ascii.isBlank rest).getD (rest, [])
    some (String.ofList word, Text.trim args)
  | _ => none

/-- What a file holds with a line more, which has this number. -/
def addLine (s : Startup) (number : Nat) (line : List Char) : Startup :=
  match directive? line with
  | none => s
  | some (word, args) =>
    match s.apply word args with
    | .ok t => t
    | .error e => { s with errors := s.errors ++ [⟨number, e⟩] }

/-- What a file holds with lines more, the first of which has this number. -/
def addLines (s : Startup) (number : Nat) : List (List Char) → Startup
  | [] => s
  | line :: rest => (s.addLine number line).addLines (number + 1) rest

/-- What the text of a startup file holds. -/
def ofText (text : String) : Startup :=
  addLines {} 1 (Text.lines text.toList)

end Startup

/-- A session with the variables and macros of a startup file. -/
def Session.ofStartup (s : Startup) : Session :=
  let settled := ({} : Session).setSigfigs s.settings.sigfigs
  let withVariables := s.globals.foldl (fun t (x, v) => t.setGlobal x (.text v)) settled
  s.macros.foldl (fun t (name, body) => t.defineMacro name body) withVariables

end ExprEngine
