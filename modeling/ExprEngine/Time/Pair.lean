import ExprEngine.Number.Binary

/-!
# Time pairs

Decimals, points in time and durations are pairs of seconds and microseconds.  A pair is normal when
its microseconds stay below a second and have the sign of the seconds, if these are not zero.

Addition and subtraction work on both members and then normalise, one borrow or carry at a time; the
seconds wrap around at the ends of the words.
-/

namespace ExprEngine

/-- Seconds and microseconds. -/
structure TimePair where
  sec : Int64
  usec : Int64
deriving DecidableEq

namespace TimePair

/-- Microseconds of a second. -/
abbrev second : Int := 1000000

/-- The pair of no time at all. -/
def zero : TimePair := ⟨0, 0⟩

/-- A whole number of seconds. -/
def ofWord (w : Int64) : TimePair := ⟨w, 0⟩

/-- Exact value in microseconds. -/
def total (t : TimePair) : Int :=
  t.sec.toInt * second + t.usec.toInt

/-- Microseconds below a second, with the sign of the seconds. -/
def Normal (t : TimePair) : Prop :=
  -second < t.usec.toInt ∧ t.usec.toInt < second ∧
    (0 < t.sec.toInt → 0 ≤ t.usec.toInt) ∧ (t.sec.toInt < 0 → t.usec.toInt ≤ 0)

instance (t : TimePair) : Decidable t.Normal :=
  inferInstanceAs (Decidable (_ ∧ _ ∧ _ ∧ _))

/-- Seconds are borrowed while the microseconds are too few. -/
def borrow (sec : Int64) (usec : Int) : Int64 × Int :=
  if usec < (if 0 < sec.toInt then 0 else -(second - 1)) then borrow (sec - 1) (usec + second)
  else (sec, usec)
termination_by (-usec).toNat
decreasing_by
  rename_i h
  split at h <;> simp only [second] at * <;> omega

/-- Seconds are carried while the microseconds are too many. -/
def carry (sec : Int64) (usec : Int) : Int64 × Int :=
  if (if sec.toInt < 0 then 0 else second - 1) < usec then carry (sec + 1) (usec - second)
  else (sec, usec)
termination_by usec.toNat
decreasing_by
  rename_i h
  split at h <;> simp only [second] at * <;> omega

/-- The normal pair of some seconds and any number of microseconds. -/
def normal (sec : Int64) (usec : Int) : TimePair :=
  let (sec, usec) := borrow sec usec
  let (sec, usec) := carry sec usec
  ⟨sec, Int64.ofInt usec⟩

/-- The pair with its microseconds brought back into range. -/
def normalize (t : TimePair) : TimePair :=
  normal t.sec t.usec.toInt

/-- The normalised sum. -/
def add (a b : TimePair) : TimePair :=
  normal (a.sec + b.sec) (a.usec.toInt + b.usec.toInt)

/-- The normalised difference. -/
def sub (a b : TimePair) : TimePair :=
  normal (a.sec - b.sec) (a.usec.toInt - b.usec.toInt)

/-- Both members are zero. -/
def isZero (t : TimePair) : Bool :=
  t.sec == 0 && t.usec == 0

/-- How a pair compares with zero, judged by its seconds unless they are zero. -/
def sign (t : TimePair) : Ordering :=
  if t.sec ≠ 0 then compare t.sec.toInt 0 else compare t.usec.toInt 0

/-- The pair as a real number of seconds. -/
def toReal (t : TimePair) : Float :=
  Binary.ofWord t.sec + Binary.ofWord t.usec / 1000000.0

/-- A real number of seconds as a pair; none if its whole part is no word. -/
def ofReal? (f : Float) : Option TimePair := do
  let whole := Binary.ofInt (← Binary.whole? f)
  let sec := Binary.toWord whole
  guard (Binary.ofWord sec == whole)
  return ⟨sec, Binary.toWord ((f - whole) * 1000000.0)⟩

end TimePair

/-- What a time pair stands for. -/
inductive TimeKind where
  /-- A number with a fraction. -/
  | decimal
  /-- A point in time, in seconds since the epoch. -/
  | absolute
  /-- A length of time. -/
  | duration
deriving DecidableEq

end ExprEngine
