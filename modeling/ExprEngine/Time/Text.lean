import ExprEngine.Time.Pair
import ExprEngine.Number.Decimal

/-!
# The text of a time pair

Decimals and points in time are written as seconds with a fraction, durations of a minute and more
on the clock: hours, minutes, and the seconds and the fraction if there are any.
-/

namespace ExprEngine.TimePair

/-- Digits without the zeros at their end, or a single zero. -/
def fraction (usec : Int) : List Char :=
  match ((Decimal.padded 6 usec).reverse.dropWhile (· == '0')).reverse with
  | [] => ['0']
  | ds => ds

/-- Seconds, a point, and the fraction without the zeros at its end. -/
def decimalText (t : TimePair) : List Char :=
  let negative := t.sec.toInt < 0 ∨ t.usec.toInt < 0
  let usec := if negative then -t.usec.toInt else t.usec.toInt
  (if negative ∧ t.sec = 0 then ['-'] else []) ++ Decimal.text t.sec.toInt ++ '.' :: fraction usec

/-- Hours and minutes, and the seconds and their fraction unless they are zero; below a minute the
decimal text. -/
def durationText (t : TimePair) : List Char :=
  if -60 < t.sec.toInt ∧ t.sec.toInt < 60 then decimalText t
  else
    let negative := t.sec.toInt < 0
    let sec := (if negative then -t.sec else t.sec).toInt
    let usec := if negative then -t.usec.toInt else t.usec.toInt
    (if negative then ['-'] else []) ++ Decimal.text (sec.tdiv 3600) ++
      ':' :: Decimal.padded 2 ((sec.tdiv 60).tmod 60) ++
      (if sec.tmod 60 ≠ 0 ∨ usec ≠ 0 then ':' :: Decimal.padded 2 (sec.tmod 60) else []) ++
      (if usec ≠ 0 then '.' :: fraction usec else [])

/-- The text of a pair of some kind. -/
def text (kind : TimeKind) (t : TimePair) : String :=
  String.ofList (match kind with
    | .duration => durationText t
    | .decimal | .absolute => decimalText t)

end ExprEngine.TimePair
