/-!
# Decimal digits

Reading a run of digits as a natural number and writing integers with leading zeros.

Main statement: the value of a longer run is the value of the shorter one times ten plus the last
digit (`value_concat`).
-/

namespace ExprEngine.Decimal

/-- The value of a digit. -/
def digit (c : Char) : Nat :=
  c.toNat - '0'.toNat

/-- The value of a run of digits, the most significant first. -/
def value (ds : List Char) : Nat :=
  ds.foldl (fun n c => 10 * n + digit c) 0

@[simp] theorem value_nil : value [] = 0 := rfl

theorem value_concat (ds : List Char) (c : Char) : value (ds ++ [c]) = 10 * value ds + digit c := by
  simp [value]

/-- Ten to the power of `n`. -/
def tenTo (n : Nat) : Nat :=
  Nat.pow 10 n

/-- The digits of a natural number. -/
def digits (n : Nat) : List Char :=
  Nat.toDigits 10 n

/-- A natural number below `limit` written in digits, with at most one plus sign before them. -/
def readNat? (limit : Nat) (cs : List Char) : Option Nat :=
  let ds := match cs with
    | '+' :: rest => rest
    | _ => cs
  if ds.isEmpty || !ds.all Char.isDigit then none
  else if value ds < limit then some (value ds) else none

/-- The text of an integer, filled up with zeros after the sign until it has `width` characters. -/
def padded (width : Nat) (i : Int) : List Char :=
  let ds := digits i.natAbs
  if i < 0 then '-' :: (List.replicate (width - 1 - ds.length) '0' ++ ds)
  else List.replicate (width - ds.length) '0' ++ ds

/-- The text of an integer. -/
def text (i : Int) : List Char :=
  padded 0 i

end ExprEngine.Decimal
