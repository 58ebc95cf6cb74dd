import ExprEngine.CommandLine.Options
import ExprEngine.Machine.Line
import ExprEngine.Program.Listing
import ExprEngine.Settings.StartupFile

/-!
# Running a command line

A run reads a startup file, takes over what the options say, and then runs the expressions of the
options or the lines of standard input, one after the other, on one machine.  What it writes goes to
two streams.

The system comes in as data: what reading a path gives (`FileText`), the home directory, and the
lines of standard input.
-/

namespace ExprEngine.CommandLine

/-- A piece of what a run writes. -/
inductive Written where
  | output (text : String)
  | error (text : String)
deriving DecidableEq

namespace Written

/-- A line for standard output. -/
def outputLine (text : String) : Written := output (text ++ "\n")

/-- A line for standard error. -/
def errorLine (text : String) : Written := error (text ++ "\n")

/-- All that goes to standard output. -/
def outputText (ws : List Written) : String :=
  String.join (ws.map fun | output t => t | error _ => "")

/-- All that goes to standard error. -/
def errorText (ws : List Written) : String :=
  String.join (ws.map fun | error t => t | output _ => "")

end Written

/-! ### The startup file -/

/-- What reading a path gives. -/
inductive FileText where
  | missing
  /-- The path exists but has no text, for the reason that the system gives. -/
  | unreadable (reason : String)
  | text (s : String)
deriving DecidableEq

/-- Name of the startup file in a directory. -/
def startupName : String := ".tfexprrc"

/-- A file in a directory. -/
def inDirectory (directory file : String) : String :=
  if directory.toList.getLast? = some '/' then directory ++ file else directory ++ "/" ++ file

namespace Options

/-- The startup files to look for, the first that exists being read. -/
def candidates (o : Options) (home : Option String) : List String :=
  match o.startup with
  | .none => []
  | .file path => [path]
  | .search => (home.map (inDirectory · startupName)).toList ++ [inDirectory "." startupName]

/-- The startup file that is read, if any: the one that is named, or the first that exists. -/
def startupPath? (o : Options) (home : Option String) (read : String → FileText) : Option String :=
  match o.startup with
  | .search => (o.candidates home).find? fun path => read path != .missing
  | _ => (o.candidates home).head?

/-- The startup with what the options say in place of its settings. -/
def override (o : Options) (s : Startup) : Startup :=
  { s with settings :=
    { s.settings with
      sigfigs := (o.sigfigs.map clampSigfigs).getD s.settings.sigfigs
      pedantic := s.settings.pedantic || o.pedantic
      optimize := s.settings.optimize && !o.plain } }

/-- What the startup file holds, and the complaints about it. -/
def readStartup (o : Options) (home : Option String) (read : String → FileText) :
    Startup × List Written :=
  match o.startupPath? home read with
  | none => ({}, [])
  | some path =>
    let warning (reason : String) :=
      Written.errorLine ("tfexpr: warning: " ++ path ++ ": " ++ reason)
    match read path with
    | .missing => ({}, [warning "No such file or directory (os error 2)"])
    | .unreadable reason => ({}, [warning reason])
    | .text s =>
      let startup := Startup.ofText s
      (startup, startup.errors.map fun e => .errorLine ("tfexpr: " ++ path ++ ": " ++ e.message))

end Options

/-- The machine that a startup sets up. -/
def machineOf (s : Startup) (host : Host) : Machine :=
  { settings := s.settings, host, session := .ofStartup s }

/-! ### Lines -/

/-- What running a line comes to. -/
structure Reply where
  machine : Machine
  written : List Written
  succeeded : Bool

/-- The listing of a source's program, and what the source comes to. -/
def listAndRun (source : String) (m : Machine) :
    String × EStateM.Result Halt Machine (Except DirectiveError (Option Value)) :=
  match Machine.compile source m with
  | .ok (.ok p) m =>
    (p.listing, match Machine.runProgram p m with
      | .ok v m => .ok (.ok (some v)) m
      | .error h m => .error h m)
  | .ok (.error e) m =>
    ("", .error (.failure (.compile e)) { m with session := m.session.report (.abort (.compile e)) })
  | .error h m => ("", .error h m)

/-- What a line writes and comes to.  Its program is listed first if that is asked for and the line
does not start with a slash. -/
def runLine (listing : Bool) (line : String) (m : Machine) : Reply :=
  let (listed, result) :=
    if listing && line.toList.head? != some '/' then listAndRun line m else ("", Machine.runLine line m)
  let (outcome, m) : Option (Except DirectiveError (Option Value)) × Machine := match result with
    | .ok r m => (some r, m)
    | .error _ m => (none, m)
  let said :=
    (if listed.isEmpty then [] else [.error listed]) ++
      m.session.output.toList.map .outputLine ++
      m.session.diagnostics.toList.map fun d => .errorLine ("% " ++ d.text)
  let cleared := { m with session := { m.session with output := #[], diagnostics := #[] } }
  match outcome with
  | some (.ok (some v)) => ⟨cleared, said ++ [.outputLine (cleared.session.toText v)], true⟩
  | some (.ok none) => ⟨cleared, said, true⟩
  | some (.error e) => ⟨cleared, said ++ [.errorLine ("% " ++ e.message)], false⟩
  | none => ⟨cleared, said, false⟩

/-- What a line of standard input is: to be passed over, the end of the run, or to be run. -/
inductive InputLine where
  | skipped
  | quit
  | line (text : String)
deriving DecidableEq

/-- What a line of standard input is, white space around it being dropped. -/
def InputLine.ofText (text : String) : InputLine :=
  let line := Text.trimmed text
  if line.isEmpty || line.toList.head? = some ';' then .skipped
  else if line = "/quit" then .quit
  else .line line

/-! ### Runs -/

/-- What expressions write, and whether all of them succeeded. -/
def runExpressions (listing : Bool) : List String → Machine → List Written × Bool
  | [], _ => ([], true)
  | e :: more, m =>
    let reply := runLine listing e m
    let (written, succeeded) := runExpressions listing more reply.machine
    (reply.written ++ written, reply.succeeded && succeeded)

/-- What lines of standard input write. -/
def runInput (listing : Bool) : List String → Machine → List Written
  | [], _ => []
  | text :: more, m =>
    match InputLine.ofText text with
    | .skipped => runInput listing more m
    | .quit => []
    | .line line =>
      let reply := runLine listing line m
      reply.written ++ runInput listing more reply.machine

/-- What a refused command line writes. -/
def refusal (e : UsageError) : List Written :=
  [.errorLine ("tfexpr: " ++ e.message), .errorLine usage]

/-- What a command line writes, and its exit code. -/
def run (args : List String) (home : Option String) (read : String → FileText) (input : List String)
    (host : Host) : List Written × Nat :=
  match Options.ofArguments args with
  | .error e => (refusal e, 1)
  | .ok o =>
    let (startup, complaints) := o.readStartup home read
    let m := machineOf (o.override startup) host
    if o.expressions.isEmpty then (complaints ++ runInput o.listing input m, 0)
    else
      let (written, succeeded) := runExpressions o.listing o.expressions m
      (complaints ++ written, if succeeded then 0 else 1)

end ExprEngine.CommandLine
