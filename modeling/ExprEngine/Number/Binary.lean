import ExprEngine.Number.Word

/-!
# The parts of a real number

Reals of the language are binary floating-point numbers of 64 bits.  This module takes one apart
into sign, mantissa and exponent, so that it can be truncated and written in exact integer
arithmetic, and converts between reals and words.
-/

namespace ExprEngine.Binary

/-- What the bits of a real stand for: a finite one is `mantissa * 2 ^ exponent` with its sign. -/
inductive Parts where
  | nan
  | infinite (negative : Bool)
  | finite (negative : Bool) (mantissa : Nat) (exponent : Int)
deriving DecidableEq

/-- The parts of a real. -/
def parts (f : Float) : Parts :=
  let bits := f.toBits.toNat
  let negative := bits >>> 63 == 1
  let e : Nat := (bits >>> 52) % 0x800
  let m : Nat := bits % 0x10000000000000
  if e = 0x7ff then if m = 0 then .infinite negative else .nan
  else if e = 0 then .finite negative m (-1074)
  else .finite negative (m + 0x10000000000000) ((e : Int) - 1075)

/-- An integer with a sign of its own. -/
def signed (negative : Bool) (n : Nat) : Int :=
  if negative then -n else n

/-- The whole part, toward zero, of a finite real; none of the others. -/
def whole? (f : Float) : Option Int :=
  match parts f with
  | .finite negative m e =>
    some (signed negative (if 0 ≤ e then m <<< e.toNat else m >>> (-e).toNat))
  | _ => none

/-- The real nearest to an integer. -/
def ofInt (i : Int) : Float :=
  Float.ofInt i

/-- The real nearest to a word. -/
def ofWord (w : Int64) : Float :=
  ofInt w.toInt

/-- The whole part of a real, clamped to the words; a NaN gives zero. -/
def toWord (f : Float) : Int64 :=
  match parts f with
  | .nan => 0
  | .infinite negative => if negative then Word.clamp Word.least else Word.clamp Word.greatest
  | .finite .. => Word.clamp ((whole? f).getD 0)

/-- The whole part of a real is a word. -/
def fitsWord (f : Float) : Bool :=
  match whole? f with
  | some i => Word.least ≤ i && i ≤ Word.greatest
  | none => false

end ExprEngine.Binary
