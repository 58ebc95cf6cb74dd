import ExprEngine.Text.Ascii

/-!
# Character classes of globs

A class is what stands between `[` and the first `]` without a backslash before it: bytes and
ranges, turned around by a `^` in front.  Bytes compare without regard to the case of ASCII letters.

Main statement: the end that the matcher finds is the end that a plain search finds, backslashes
taking the next byte with them (`findUnescaped?`).
-/

namespace ExprEngine.Glob

/-- The byte of an ASCII character. -/
abbrev byte (c : Char) : UInt8 := c.toUInt8

/-- Index of the first `needle` that no backslash escapes. -/
def findUnescaped? (needle : UInt8) : List UInt8 → Option Nat
  | [] => none
  | [b] => if b ≠ byte '\\' ∧ b = needle then some 0 else none
  | b :: c :: rest =>
    if b = byte '\\' then (findUnescaped? needle rest).map (· + 2)
    else if b = needle then some 0
    else (findUnescaped? needle (c :: rest)).map (· + 1)

/-- Only a text that is not empty holds anything. -/
theorem pos_of_findUnescaped? {needle : UInt8} {cs : List UInt8} {n : Nat}
    (h : findUnescaped? needle cs = some n) : 0 < cs.length := by
  cases cs with
  | nil => simp [findUnescaped?] at h
  | cons => simp

/-- A byte of a class, a backslash before it dropped, and what follows. -/
def classByte : List UInt8 → Option (UInt8 × List UInt8)
  | [] => none
  | [b] => if b = byte '\\' then none else some (b, [])
  | b :: c :: rest => if b = byte '\\' then some (c, rest) else some (b, c :: rest)

/-- The upper end of a range, if one starts here, and what follows.  A dash before the end of the
class is a byte like others. -/
def rangeEnd : List UInt8 → Option (Option UInt8 × List UInt8)
  | d :: e :: rest =>
    if d = byte '-' ∧ e ≠ byte ']' then (classByte (e :: rest)).map fun (hi, rest) => (some hi, rest)
    else some (none, d :: e :: rest)
  | rest => some (none, rest)

/-- The byte is `lo`, or lies between `lo` and `hi`, all folded to lower case. -/
def inItem (b lo : UInt8) : Option UInt8 → Bool
  | some hi => Ascii.lower lo ≤ Ascii.lower b && Ascii.lower b ≤ Ascii.lower hi
  | none => Ascii.lower lo == Ascii.lower b

theorem classByte_length {cs rest : List UInt8} {b : UInt8} (h : classByte cs = some (b, rest)) :
    rest.length < cs.length := by
  unfold classByte at h
  split at h
  · simp at h
  · split at h <;> simp at h
    simp [h.2]
  · split at h <;> simp only [Option.some.injEq, Prod.mk.injEq] at h <;>
      simp only [← h.2, List.length_cons] <;> omega

theorem rangeEnd_length {cs rest : List UInt8} {hi : Option UInt8}
    (h : rangeEnd cs = some (hi, rest)) : rest.length ≤ cs.length := by
  unfold rangeEnd at h
  split at h
  · split at h
    · obtain ⟨⟨b, r⟩, hb, he⟩ := Option.map_eq_some_iff.mp h
      have := classByte_length hb
      simp only [Prod.mk.injEq] at he
      simp only [← he.2, List.length_cons] at this ⊢
      omega
    · simp only [Option.some.injEq, Prod.mk.injEq] at h
      simp [← h.2]
  · simp only [Option.some.injEq, Prod.mk.injEq] at h
    simp [← h.2]

/-- Some item of a class body holds `b`, and what follows the closing bracket; none without one. -/
def classItems (b : UInt8) (cs : List UInt8) : Option (Bool × List UInt8) :=
  match cs with
  | [] => none
  | c :: rest =>
    if c = byte ']' then some (false, rest)
    else
      match _h₁ : classByte (c :: rest) with
      | none => none
      | some (lo, cs₁) =>
        match _h₂ : rangeEnd cs₁ with
        | none => none
        | some (hi, cs₂) => (classItems b cs₂).map fun (hit, rest) => (inItem b lo hi || hit, rest)
termination_by cs.length
decreasing_by
  have := classByte_length _h₁
  have := rangeEnd_length _h₂
  omega

/-- What follows the class whose body is `cs`, if the class is closed and holds `b`. -/
def classRest? (b : UInt8) (cs : List UInt8) : Option (List UInt8) :=
  let (negated, body) : Bool × List UInt8 := match cs with
    | c :: rest => if c = byte '^' then (true, rest) else (false, cs)
    | [] => (false, [])
  match classItems b body with
  | some (hit, rest) => if hit ≠ negated then some rest else none
  | none => none

/-- Number of bytes that the class takes up to its closing bracket, if it is closed and holds
`b`. -/
def classUsed? (b : UInt8) (cs : List UInt8) : Option Nat :=
  (classRest? b cs).map fun rest => cs.length - rest.length

end ExprEngine.Glob
