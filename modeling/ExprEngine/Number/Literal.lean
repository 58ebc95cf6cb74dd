import ExprEngine.Time.Pair
import ExprEngine.Number.Decimal
import ExprEngine.Text.Ascii

/-!
# Number literals

| text                                     | value                                        |
|------------------------------------------|----------------------------------------------|
| digits                                   | an integer, or a real if it is no word       |
| digits `.` at most six digits            | a decimal                                    |
| hours `:` minutes `:` seconds `.` digits | a decimal of so many seconds                 |
| with an exponent, or more than six digits| a real                                       |

Blanks and any run of signs may stand in front; an odd number of minus signs negates.  Reading stops
at the first character that cannot go on.  Text without a digit reads as the integer zero.
-/

namespace ExprEngine

/-- A number read from a text. -/
inductive Number where
  | int (value : Int64)
  | decimal (value : TimePair)
  | real (value : Float)
deriving DecidableEq

/-- Why a text of digits is no number. -/
inductive NumberError where
  | timeTooLarge
  | valueTooLarge
deriving DecidableEq

/-- The text of the error. -/
def NumberError.message : NumberError → String
  | .timeTooLarge => "time value too large"
  | .valueTooLarge => "numeric value too large"

namespace Literal

/-- The digits in front of a text and what follows them. -/
def spanDigits (cs : List Char) : List Char × List Char :=
  (cs.takeWhile Char.isDigit, cs.dropWhile Char.isDigit)

/-- A plus or a minus sign. -/
def isSign (c : Char) : Bool :=
  c == '+' || c == '-'

/-- The digits after the point, if a point stands here, and what follows. -/
def spanFraction (cs : List Char) : List Char × List Char :=
  match cs with
  | '.' :: rest => spanDigits rest
  | _ => ([], cs)

/-- The exponent, if one stands here with at least one digit, and what follows. -/
def spanExponent (cs : List Char) : Int × List Char :=
  match cs with
  | 'e' :: rest | 'E' :: rest =>
    let (negative, unsigned) : Bool × List Char := match rest with
      | '+' :: ds => (false, ds)
      | '-' :: ds => (true, ds)
      | ds => (false, ds)
    match spanDigits unsigned with
    | ([], _) => (0, cs)
    | (ds, rest) => (Binary.signed negative (Decimal.value ds), rest)
  | _ => (0, cs)

/-- The real in front of a text without sign, zero if there are no digits, and what follows. -/
def spanReal (cs : List Char) : Float × List Char :=
  let (whole, cs) := spanDigits cs
  let (fraction, cs) := spanFraction cs
  let (exponent, cs) := spanExponent cs
  let e := exponent - fraction.length
  (Float.ofScientific (Decimal.value (whole ++ fraction)) (e < 0) e.natAbs, cs)

/-- The real in front of a text, which is too large if it is infinite. -/
def real (negative : Bool) (cs : List Char) : Except NumberError (Number × List Char) :=
  let (f, rest) := spanReal cs
  if f.isInf then .error .valueTooLarge else .ok (.real (if negative then -f else f), rest)

/-- Up to six digits as microseconds. -/
def microseconds (ds : List Char) : Int :=
  let ds := ds.take 6
  Decimal.value ds * Decimal.tenTo (6 - ds.length)

/-- A decimal of seconds and microseconds. -/
def pair (negative : Bool) (sec : Int64) (usec : Int) : Number :=
  .decimal (if negative then ⟨-sec, Int64.ofInt (-usec)⟩ else ⟨sec, Int64.ofInt usec⟩)

/-- A part of a clock time, counted in so many seconds each. -/
def clockPart (unit : Int) (ds : List Char) : Except NumberError Int64 :=
  match (Word.checked (Decimal.value ds)).bind fun n => Word.checked (n.toInt * unit) with
  | some n => .ok n
  | none => .error .timeTooLarge

/-- Two parts of a clock time together. -/
def clockSum (a b : Int64) : Except NumberError Int64 :=
  match Word.checkedAdd a b with
  | some n => .ok n
  | none => .error .timeTooLarge

/-- The seconds of a clock time behind the minutes, and what follows. -/
def clockSeconds (sec : Int64) (cs : List Char) : Except NumberError (Int64 × List Char) :=
  match cs with
  | ':' :: rest => do
    let (ds, rest) := spanDigits rest
    return (← clockSum sec (← clockPart 1 ds), rest)
  | _ => .ok (sec, cs)

/-- The minutes and seconds of a clock time behind the colon after the hours, and what follows. -/
def clockMinutes (sec : Int64) (cs : List Char) : Except NumberError (Int64 × List Char) :=
  match spanDigits cs with
  | ([], _) => .ok (sec, cs)
  | (ds, rest) => do clockSeconds (← clockSum sec (← clockPart 60 ds)) rest

/-- A clock time whose hours have been read. -/
def clock (negative : Bool) (hours cs : List Char) : Except NumberError (Number × List Char) := do
  let (sec, cs) ← clockMinutes (← clockPart 3600 hours) cs
  let (fraction, cs) := spanFraction cs
  return (pair negative sec (microseconds fraction), cs)

/-- A number without sign, and what follows. -/
def unsigned (negative : Bool) (cs : List Char) : Except NumberError (Number × List Char) :=
  let (ds, rest) := spanDigits cs
  match rest with
  | ':' :: rest => clock negative ds rest
  | '.' :: after =>
    let (fraction, rest) := spanDigits after
    let isReal := 6 < fraction.length || rest.head? == some 'e' || rest.head? == some 'E'
    match Word.checked (Decimal.value ds) with
    | some sec => if isReal then real negative cs else .ok (pair negative sec (microseconds fraction), rest)
    | none => real negative cs
  | 'e' :: _ | 'E' :: _ => real negative cs
  | _ =>
    match Word.checked (Decimal.value ds) with
    | some n => .ok (.int (if negative then -n else n), rest)
    | none => real negative cs

/-- The number in front of a text, and how many characters it takes, blanks and signs included. -/
def parse (cs : List Char) : Except NumberError (Number × Nat) := do
  let signed := cs.dropWhile Ascii.isBlank
  let negative := (signed.takeWhile isSign).count '-' % 2 == 1
  let (n, rest) ← unsigned negative (signed.dropWhile isSign)
  return (n, cs.length - rest.length)

/-- The real in front of a text after at most one sign; infinite if it is too large. -/
def leadingReal (cs : List Char) : Float :=
  match cs.dropWhile Ascii.isBlank with
  | '-' :: rest => -(spanReal rest).1
  | '+' :: rest => (spanReal rest).1
  | rest => (spanReal rest).1

end Literal

end ExprEngine
