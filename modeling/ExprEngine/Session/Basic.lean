import ExprEngine.Session.Diagnostic
import ExprEngine.Session.Table
import ExprEngine.Value.Basic

/-!
# Sessions

What evaluations share: the variables in their scopes, the frames of the macros that are running,
the macros and commands, the last result and the last match, and what has been reported and written.

Each frame brings a scope of its own.  A name means the variable of the innermost scope that has it;
an assignment to a name that no scope has makes a global variable.

Main statements: after an assignment the name reads as what was assigned (`lookup_assign_self`) and
all other names as before (`lookup_assign_ne`).
-/

namespace ExprEngine

/-- A macro that is running, or a list of parameters that was entered as if one were. -/
structure Frame where
  name : String
  params : List Value
  locals : Table Value := ∅

/-- Fewest and most significant digits that a session may be set to. -/
abbrev sigfigsRange : Nat × Nat := (1, 17)

/-- A number of digits brought into the range. -/
def clampSigfigs (n : Nat) : Nat :=
  max sigfigsRange.1 (min sigfigsRange.2 n)

/-- The commands that every session knows. -/
def Command.known : List Command :=
  [⟨"echo", true⟩, ⟨"exit", false⟩, ⟨"quit", false⟩]

/-- A session, its innermost frame first. -/
structure Session where
  globals : Table Value := ∅
  frames : List Frame := []
  macros : Table String := ∅
  commands : List Command := Command.known
  result : Option Value := none
  lastMatch : Option Found := none
  sigfigs : Nat := defaultSigfigs
  diagnostics : Array Diagnostic := #[]
  output : Array String := #[]

namespace Session

/-! ### Variables -/

/-- The variable of the innermost of some frames that has the name. -/
def lookupLocal (x : String) : List Frame → Option Value
  | [] => none
  | f :: rest => (f.locals.get? x).or (lookupLocal x rest)

/-- The value of the innermost variable of a name. -/
def lookup (s : Session) (x : String) : Option Value :=
  (lookupLocal x s.frames).or (s.globals.get? x)

/-- The frames with a new value for the innermost variable of a name, if one of them has it. -/
def assignLocal (x : String) (v : Value) : List Frame → Option (List Frame)
  | [] => none
  | f :: rest =>
    if f.locals.contains x then some ({ f with locals := f.locals.insert x v } :: rest)
    else (assignLocal x v rest).map (f :: ·)

/-- The session with a new value for the innermost variable of a name, or with a new global one. -/
def assign (s : Session) (x : String) (v : Value) : Session :=
  match assignLocal x v s.frames with
  | some frames => { s with frames }
  | none => { s with globals := s.globals.insert x v }

/-- The session with a global variable set. -/
def setGlobal (s : Session) (x : String) (v : Value) : Session :=
  { s with globals := s.globals.insert x v }

/-- The session with a variable of the innermost scope set. -/
def setLocal (s : Session) (x : String) (v : Value) : Session :=
  match s.frames with
  | [] => s.setGlobal x v
  | f :: rest => { s with frames := { f with locals := f.locals.insert x v } :: rest }

/-- Number of variables in all scopes. -/
def variableCount (s : Session) : Nat :=
  s.frames.foldr (fun f n => f.locals.entries.length + n) s.globals.entries.length

/-- The value that `v` leads to through at most `steps` look-ups, if that is no reference any
more. -/
def follow (s : Session) : (steps : Nat) → Value → Option Value
  | 0, v => if v.name?.isSome then none else some v
  | steps + 1, v =>
    match v.name? with
    | some x => (s.lookup x).bind (s.follow steps)
    | none => some v

/-- The value that a value stands for: itself, or what a reference leads to.  More look-ups than
there are variables would go round in a circle. -/
def target? (s : Session) (v : Value) : Option Value :=
  s.follow (s.variableCount + 1) v

/-! ### Frames, macros and commands -/

/-- The session inside a new frame. -/
def pushFrame (s : Session) (name : String) (params : List Value) : Session :=
  { s with frames := { name, params } :: s.frames }

/-- The session outside its innermost frame. -/
def popFrame (s : Session) : Session :=
  { s with frames := s.frames.tail }

/-- Parameters of the innermost frame. -/
def params (s : Session) : List Value :=
  match s.frames with
  | [] => []
  | f :: _ => f.params

/-- Name of the innermost frame. -/
def frameName (s : Session) : String :=
  match s.frames with
  | [] => ""
  | f :: _ => f.name

/-- The session with a macro defined, in place of an older one of its name. -/
def defineMacro (s : Session) (name body : String) : Session :=
  { s with macros := s.macros.insert name body }

/-- The body of a macro. -/
def macroBody? (s : Session) (name : String) : Option String :=
  s.macros.get? name

/-- The command of a name. -/
def findCommand? (s : Session) (name : String) : Option Command :=
  s.commands.find? (·.name == name)

/-! ### Settings and reports -/

/-- The session with a number of significant digits, brought into range. -/
def setSigfigs (s : Session) (n : Nat) : Session :=
  { s with sigfigs := clampSigfigs n }

/-- The session with reports added. -/
def record (s : Session) (log : List Diagnostic) : Session :=
  { s with diagnostics := s.diagnostics ++ log }

/-- The session with a report added. -/
def report (s : Session) (d : Diagnostic) : Session :=
  { s with diagnostics := s.diagnostics.push d }

/-- The session with a line of output added. -/
def write (s : Session) (line : String) : Session :=
  { s with output := s.output.push line }

/-! ### What assignment does to look-up -/

theorem assignLocal_eq_none {x : String} {v : Value} {frames : List Frame}
    (h : assignLocal x v frames = none) : lookupLocal x frames = none := by
  induction frames with
  | nil => rfl
  | cons f rest ih =>
    simp only [assignLocal] at h
    split at h
    · simp at h
    · next hc =>
      simp only [Table.contains, Bool.not_eq_true, Option.isSome_eq_false_iff,
        Option.isNone_iff_eq_none] at hc
      simp [lookupLocal, hc, ih (Option.map_eq_none_iff.mp h)]

theorem lookupLocal_assignLocal {x : String} {v : Value} {frames frames' : List Frame}
    (h : assignLocal x v frames = some frames') (z : String) :
    lookupLocal z frames' = if z = x then some v else lookupLocal z frames := by
  induction frames generalizing frames' with
  | nil => simp [assignLocal] at h
  | cons f rest ih =>
    simp only [assignLocal] at h
    split at h
    · simp only [Option.some.injEq] at h
      subst h
      by_cases hz : z = x
      · simp [lookupLocal, hz]
      · simp [lookupLocal, hz, Table.get?_insert_ne _ hz]
    · next hc =>
      simp only [Table.contains, Bool.not_eq_true, Option.isSome_eq_false_iff,
        Option.isNone_iff_eq_none] at hc
      obtain ⟨rest', hr, rfl⟩ := Option.map_eq_some_iff.mp h
      have := ih hr
      by_cases hz : z = x
      · subst hz
        simp [lookupLocal, hc, this]
      · simp [lookupLocal, hz, this]

@[simp] theorem lookup_assign_self (s : Session) (x : String) (v : Value) :
    (s.assign x v).lookup x = some v := by
  unfold assign
  split
  · next h => simp [lookup, lookupLocal_assignLocal h x]
  · next h => simp [lookup, assignLocal_eq_none h]

theorem lookup_assign_ne (s : Session) {x z : String} (hz : z ≠ x) (v : Value) :
    (s.assign x v).lookup z = s.lookup z := by
  unfold assign
  split
  · next h => simp [lookup, lookupLocal_assignLocal h z, hz]
  · next h => simp [lookup, Table.get?_insert_ne _ hz]

end Session

end ExprEngine
