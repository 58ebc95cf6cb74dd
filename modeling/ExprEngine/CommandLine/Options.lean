import ExprEngine.Number.Decimal
import ExprEngine.Settings.Basic

/-!
# Command-line options

Options are letters behind a minus sign, several in one argument if need be.  A letter that takes a
text takes the rest of its argument, or the next argument if nothing is left.
-/

namespace ExprEngine.CommandLine

/-- Which startup file is read. -/
inductive StartupChoice where
  /-- The first that exists of the user's and the local one. -/
  | search
  | none
  | file (path : String)
deriving DecidableEq

/-- What the command line asks for. -/
structure Options where
  startup : StartupChoice := .search
  /-- Expressions in place of standard input. -/
  expressions : List String := []
  sigfigs : Option Nat := none
  pedantic : Bool := false
  /-- Programs are listed before they run. -/
  listing : Bool := false
  plain : Bool := false
deriving DecidableEq

/-- Why a command line is refused. -/
inductive UsageError where
  | argument (arg : String)
  | noExpression
  | noNumber
  | number (text : String)
  | option (letter : Char)
deriving DecidableEq

/-- The text of the error. -/
def UsageError.message : UsageError → String
  | .argument arg => "unexpected argument: " ++ arg
  | .noExpression => "-e requires an expression argument"
  | .noNumber => "-s requires a number"
  | .number text => "invalid sigfigs: " ++ text
  | .option letter => "unknown option: -" ++ String.singleton letter

/-- The line that shows the options. -/
def usage : String :=
  "Usage: tfexpr [-f[<file>]] [-e<expr>]... [-s<sigfigs>] [-pdO]"

namespace Options

/-- The options with a number of significant digits. -/
def withSigfigs (o : Options) (text : String) : Except UsageError Options :=
  match Decimal.readNat? Settings.numberLimit text.toList with
  | some n => .ok { o with sigfigs := some n }
  | none => .error (.number text)

/-- The options with an expression more. -/
def withExpression (o : Options) (text : String) : Options :=
  { o with expressions := o.expressions ++ [text] }

/-- The options with a startup file. -/
def withFile (o : Options) (path : String) : Options :=
  { o with startup := .file path }

mutual

/-- The options with those of some arguments. -/
def addArguments (o : Options) : List String → Except UsageError Options
  | [] => .ok o
  | arg :: args =>
    match arg.toList with
    | '-' :: c :: letters => addLetters o (c :: letters) args
    | _ => .error (.argument arg)
termination_by args => (args.length, 0)

/-- The options with those of some letters and of the arguments behind them. -/
def addLetters (o : Options) (letters : List Char) (args : List String) : Except UsageError Options :=
  match letters, args with
  | [], args => addArguments o args
  | 'd' :: more, args => addLetters { o with listing := true } more args
  | 'p' :: more, args => addLetters { o with pedantic := true } more args
  | 'O' :: more, args => addLetters { o with plain := true } more args
  | ['f'], [] => .ok { o with startup := .none }
  | ['f'], path :: args =>
    if path.toList.head? = some '-' then addArguments { o with startup := .none } (path :: args)
    else addArguments (o.withFile path) args
  | 'f' :: path, args => addArguments (o.withFile (String.ofList path)) args
  | ['e'], [] => .error .noExpression
  | ['e'], text :: args => addArguments (o.withExpression text) args
  | 'e' :: text, args => addArguments (o.withExpression (String.ofList text)) args
  | ['s'], [] => .error .noNumber
  | ['s'], text :: args => do addArguments (← o.withSigfigs text) args
  | 's' :: text, args => do addArguments (← o.withSigfigs (String.ofList text)) args
  | c :: _, _ => .error (.option c)
termination_by (args.length, letters.length + 1)

end

/-- The options of a command line. -/
def ofArguments (args : List String) : Except UsageError Options :=
  addArguments {} args

end Options

end ExprEngine.CommandLine
