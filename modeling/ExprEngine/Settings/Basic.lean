import ExprEngine.Number.Decimal
import ExprEngine.Session.Basic
import ExprEngine.Text.Ascii
import ExprEngine.Text.Blank

/-!
# Settings

What an evaluation is bounded by and how it reports, and how settings are written in text.

Main statement: a setting that is accepted leaves the numbers in their ranges (`inRange_of_set`).
-/

namespace ExprEngine

/-- The settings of the engine. -/
structure Settings where
  /-- Significant digits of a real that is shown. -/
  sigfigs : Nat := defaultSigfigs
  /-- Constants are computed when a source is compiled. -/
  optimize : Bool := true
  /-- Legal but doubtful sources are remarked on every time. -/
  pedantic : Bool := false
  /-- Number of values that the stack holds. -/
  stackSize : Nat := 512
  /-- Number of instructions that a program may run; zero sets no limit. -/
  maxInstr : Nat := 1000000
deriving DecidableEq

/-- Why a setting is refused. -/
inductive SettingError where
  | number (name value : String)
  | flag (name value : String)
  | noStack
deriving DecidableEq

/-- The text of the error. -/
def SettingError.message : SettingError → String
  | .number name value => name ++ ": invalid number '" ++ value ++ "'"
  | .flag name value => name ++ ": invalid flag value '" ++ value ++ "'"
  | .noStack => "stack_size must be positive"

namespace Settings

/-- Numbers in settings are below this. -/
abbrev numberLimit : Nat := 0x10000000000000000

/-- The number that a setting is written as, white space around it being dropped. -/
def number (name value : String) : Except SettingError Nat :=
  match Decimal.readNat? numberLimit (Text.trim value.toList) with
  | some n => .ok n
  | none => .error (.number name value)

/-- The flag that a setting is written as, in any case of letters. -/
def flag (name value : String) : Except SettingError Bool :=
  let word := Text.trimmed value
  if Ascii.sameWord word "on" || word == "1" then .ok true
  else if Ascii.sameWord word "off" || word == "0" then .ok false
  else .error (.flag name value)

/-- The settings with one of them changed; none if there is no setting of the name. -/
def set (s : Settings) (name value : String) : Except SettingError (Option Settings) :=
  match name with
  | "sigfigs" => do return some { s with sigfigs := clampSigfigs (← number name value) }
  | "optimize" => do return some { s with optimize := ← flag name value }
  | "pedantic" => do return some { s with pedantic := ← flag name value }
  | "stack_size" => do
    let n ← number name value
    if n = 0 then throw .noStack else return some { s with stackSize := n }
  | "max_instr" => do return some { s with maxInstr := ← number name value }
  | _ => return none

/-- The settings that some variables make, in order, other names being left out. -/
def ofVariables (vars : List (String × String)) : Except SettingError Settings :=
  vars.foldlM (fun s (name, value) => do return (← s.set name value).getD s) {}

/-- The numbers are in their ranges. -/
def InRange (s : Settings) : Prop :=
  sigfigsRange.1 ≤ s.sigfigs ∧ s.sigfigs ≤ sigfigsRange.2 ∧ 0 < s.stackSize

theorem clampSigfigs_mem (n : Nat) :
    sigfigsRange.1 ≤ clampSigfigs n ∧ clampSigfigs n ≤ sigfigsRange.2 := by
  simp only [clampSigfigs]
  omega

/-- A setting that is accepted leaves the numbers in their ranges. -/
theorem inRange_of_set {s t : Settings} {name value : String} (hs : s.InRange)
    (h : s.set name value = .ok (some t)) : t.InRange := by
  obtain ⟨h₁, h₂, h₃⟩ := hs
  unfold set at h
  split at h
  · cases hn : number "sigfigs" value with
    | error e => simp [hn, bind, Except.bind] at h
    | ok n =>
      simp only [hn, bind, Except.bind, pure, Except.pure, Except.ok.injEq, Option.some.injEq] at h
      subst h
      exact ⟨(clampSigfigs_mem n).1, (clampSigfigs_mem n).2, h₃⟩
  · cases hf : flag "optimize" value with
    | error e => simp [hf, bind, Except.bind] at h
    | ok b =>
      simp only [hf, bind, Except.bind, pure, Except.pure, Except.ok.injEq, Option.some.injEq] at h
      subst h
      exact ⟨h₁, h₂, h₃⟩
  · cases hf : flag "pedantic" value with
    | error e => simp [hf, bind, Except.bind] at h
    | ok b =>
      simp only [hf, bind, Except.bind, pure, Except.pure, Except.ok.injEq, Option.some.injEq] at h
      subst h
      exact ⟨h₁, h₂, h₃⟩
  · cases hn : number "stack_size" value with
    | error e => simp [hn, bind, Except.bind] at h
    | ok n =>
      by_cases h0 : n = 0
      · simp [hn, bind, Except.bind, h0, throw, throwThe, MonadExceptOf.throw] at h
      · simp only [hn, bind, Except.bind, h0, if_false, pure, Except.pure, Except.ok.injEq,
          Option.some.injEq] at h
        subst h
        exact ⟨h₁, h₂, Nat.pos_of_ne_zero h0⟩
  · cases hn : number "max_instr" value with
    | error e => simp [hn, bind, Except.bind] at h
    | ok n =>
      simp only [hn, bind, Except.bind, pure, Except.pure, Except.ok.injEq, Option.some.injEq] at h
      subst h
      exact ⟨h₁, h₂, h₃⟩
  · simp [pure, Except.pure] at h

end Settings

end ExprEngine
