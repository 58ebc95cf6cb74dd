import ExprEngine.Number.Binary
import ExprEngine.Number.Decimal

/-!
# The text of a real number

A real is written with a given number of significant digits, rounded to nearest, a half to the even
neighbour.  Trailing zeros of the fraction are dropped.  The notation is scientific below a ten
thousandth and from ten to the number of digits on.  A text of digits alone gets a point at its end,
so that it does not read as an integer.

All of it is exact integer arithmetic on the parts of the real.
-/

namespace ExprEngine.RealText

/-- The quotient of two natural numbers rounded to nearest, a half to the even neighbour. -/
def roundDiv (num den : Nat) : Nat :=
  let q := num / den
  let r := num % den
  if den < 2 * r ∨ (den = 2 * r ∧ q % 2 = 1) then q + 1 else q

/-- Number of decimal digits of a positive natural number; zero has none. -/
def length (n : Nat) : Nat :=
  if n = 0 then 0 else (Decimal.digits n).length

/-- The exponent `k` with `10 ^ k ≤ num / den < 10 ^ (k + 1)`. -/
def magnitude (num den : Nat) : Int :=
  if den ≤ num then length (num / den) - 1 else -length ((den - 1) / num)

/-- The value of the digits `d₁d₂…` of a scaled number: `num / den * 10 ^ shift`, rounded. -/
def scaled (num den : Nat) (shift : Int) : Nat :=
  if 0 ≤ shift then roundDiv (num * Decimal.tenTo shift.toNat) den
  else roundDiv num (den * Decimal.tenTo (-shift).toNat)

/-- Exactly `prec` significant digits of a positive fraction, and the exponent of the first. -/
def significant (prec num den : Nat) : List Char × Int :=
  let k := magnitude num den
  let n := scaled num den (prec - 1 - k)
  if n < Decimal.tenTo prec then (Decimal.digits n, k) else (Decimal.digits (Decimal.tenTo (prec - 1)), k + 1)

/-- A fraction without the zeros at its end. -/
def dropZeros (ds : List Char) : List Char :=
  (ds.reverse.dropWhile (· == '0')).reverse

/-- Digits with a fraction behind a point, or without either if the fraction is zero. -/
def withFraction (whole fraction : List Char) : List Char :=
  match dropZeros fraction with
  | [] => whole
  | fraction => whole ++ '.' :: fraction

/-- Significant digits, the first of them with exponent `k`, in the notation that fits. -/
def layout (prec : Nat) (ds : List Char) (k : Int) : List Char :=
  if k < -4 ∨ prec ≤ k then
    withFraction (ds.take 1) (ds.drop 1) ++
      ['e', if k < 0 then '-' else '+'] ++ Decimal.padded 2 k.natAbs
  else if k < 0 then
    withFraction ['0'] (List.replicate (-k - 1).toNat '0' ++ ds)
  else
    withFraction (ds.take (k.toNat + 1)) (ds.drop (k.toNat + 1))

/-- The text of a real with `prec` significant digits. -/
def general (prec : Nat) (f : Float) : List Char :=
  match Binary.parts f with
  | .nan => ['n', 'a', 'n']
  | .infinite negative => (if negative then ['-'] else []) ++ ['i', 'n', 'f']
  | .finite negative m e =>
    let digits :=
      if m = 0 then ['0']
      else
        let (ds, k) :=
          if 0 ≤ e then significant prec (m <<< e.toNat) 1 else significant prec m (1 <<< (-e).toNat)
        layout prec ds k
    if negative then '-' :: digits else digits

/-- The text of a real value: `sigfigs` significant digits, at least one, and a point after digits
that would read as an integer. -/
def text (sigfigs : Nat) (f : Float) : String :=
  let cs := general (max 1 sigfigs) f
  String.ofList (if cs.all Char.isDigit then cs ++ ['.'] else cs)

end ExprEngine.RealText
