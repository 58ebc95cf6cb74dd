/-!
# Random numbers

A generator of 64 bits: three shifts, each combined with the state by exclusive or.  Each state is
the number drawn.  Zero leads to zero and is no seed.
-/

namespace ExprEngine.Random

/-- The seed in place of zero. -/
def fallbackSeed : UInt64 := 0x517cc1b727220a95

/-- The state that a seed stands for. -/
def seeded (seed : UInt64) : UInt64 :=
  if seed = 0 then fallbackSeed else seed

/-- The next state. -/
def next (x : UInt64) : UInt64 :=
  let x := x ^^^ (x <<< 13)
  let x := x ^^^ (x >>> 7)
  x ^^^ (x <<< 17)

/-- A number from `lo` to `hi`, `lo` if there are none, that a draw picks. -/
def between (lo hi : Int64) (drawn : UInt64) : Int64 :=
  if hi ≤ lo then lo
  else Int64.ofInt (lo.toInt + (drawn.toNat : Int) % (hi.toInt - lo.toInt + 1))

end ExprEngine.Random
