import ExprEngine.Builtin.Table
import ExprEngine.Number.Literal
import ExprEngine.Number.RealText
import ExprEngine.Time.Text

/-!
# Values

What variables, parameters, constants and the stack hold.  A value that names a variable is a
reference, which operators read when they need it.

Equality of values (`Value.same`) tells kinds apart, compares reals as numbers and enumerated values
by their ordinals.
-/

namespace ExprEngine

/-- A command of the host, as an expression sees it; some may not be called as functions. -/
structure Command where
  name : String
  callable : Bool
deriving DecidableEq

/-- The content of a value. -/
inductive Payload where
  | int (n : Int64)
  /-- A setting that is no negative number. -/
  | pos (n : Int64)
  /-- A setting with names for its values. -/
  | enumerated (ordinal : Int64) (name : String)
  | time (t : TimePair) (kind : TimeKind)
  | real (f : Float)
  | text (s : String)
  /-- A reference to the variable of this name. -/
  | name (x : String)
  | function (b : Builtin)
  | command (c : Command)
deriving DecidableEq

/-- A content, and whether it is a match count of `regmatch`. -/
structure Value where
  payload : Payload
  matchCount : Bool := false
deriving DecidableEq

namespace Payload

/-- Equality of contents: of one kind and with the same number, text or name. -/
def same : Payload → Payload → Bool
  | int a, int b | pos a, pos b | enumerated a _, enumerated b _ => a == b
  | time a k, time b l => a == b && k == l
  | real a, real b => a == b
  | text a, text b | name a, name b => a == b
  | function a, function b => a == b
  | command a, command b => a.name == b.name
  | _, _ => false

/-- The name of the kind. -/
def typeName : Payload → String
  | int _ => "int"
  | pos _ => "pos"
  | enumerated .. => "enum"
  | time _ .decimal => "decimal"
  | time _ .absolute => "atime"
  | time _ .duration => "dtime"
  | real _ => "float"
  | text _ => "string"
  | name _ => "id"
  | function _ => "func"
  | command _ => "cmd"

/-- The text of a content, with `sigfigs` digits for a real; a reference shows its own name. -/
def render (sigfigs : Nat) : Payload → String
  | int n | pos n => String.ofList (Decimal.text n.toInt)
  | enumerated _ label => label
  | time t kind => t.text kind
  | real f => RealText.text sigfigs f
  | text s => s
  | name x => x
  | function b => b.name
  | command c => c.name

end Payload

/-- Significant digits where no setting says otherwise. -/
abbrev defaultSigfigs : Nat := 15

namespace Value

/-- An integer value. -/
def int (n : Int64) : Value := ⟨.int n, false⟩

/-- An integer that counts something in the program's own texts and lists. -/
def count (n : Nat) : Value := int (Int64.ofNat n)

/-- One for true and zero for false. -/
def bool (b : Bool) : Value := int (if b then 1 else 0)

/-- A text value. -/
def text (s : String) : Value := ⟨.text s, false⟩

/-- The empty text. -/
def blank : Value := text ""

/-- A real value. -/
def real (f : Float) : Value := ⟨.real f, false⟩

/-- A time value. -/
def time (t : TimePair) (kind : TimeKind) : Value := ⟨.time t kind, false⟩

/-- A reference to a variable. -/
def name (x : String) : Value := ⟨.name x, false⟩

/-- The value of a number that was read. -/
def ofNumber : Number → Value
  | .int n => int n
  | .decimal t => time t .decimal
  | .real f => real f

/-- Equality of content, both or neither being a match count. -/
def same (a b : Value) : Bool :=
  a.payload.same b.payload && a.matchCount == b.matchCount

/-- The variable that the value refers to, if it is a reference. -/
def name? (v : Value) : Option String :=
  match v.payload with
  | .name x => some x
  | _ => none

/-- The value is the empty text itself. -/
def isBlank (v : Value) : Bool :=
  match v.payload with
  | .text s => s.isEmpty
  | _ => false

/-- The text of a value on its own, outside any session. -/
def display (v : Value) : String :=
  v.payload.render defaultSigfigs

end Value

/-- A number that an operator works on. -/
inductive Num where
  | int (n : Int64)
  | time (t : TimePair) (kind : TimeKind)
  | real (f : Float)
deriving DecidableEq

namespace Num

/-- The number that was read. -/
def ofNumber : Number → Num
  | .int n => int n
  | .decimal t => time t .decimal
  | .real f => real f

/-- The number as a real. -/
def toReal : Num → Float
  | int n => Binary.ofWord n
  | time t _ => t.toReal
  | real f => f

/-- The number is not zero. -/
def isTrue : Num → Bool
  | int n => n != 0
  | time t _ => !t.isZero
  | real f => f != 0.0

/-- The number as a value. -/
def toValue : Num → Value
  | int n => .int n
  | time t kind => .time t kind
  | real f => .real f

end Num

/-- The case-blind hash of a name: each byte, in lower case, added to 33 times what came before. -/
def nameHash (s : String) : UInt32 :=
  s.toUTF8.toList.foldl (fun h b => 33 * h + (Ascii.lower b).toUInt32) 0

end ExprEngine
