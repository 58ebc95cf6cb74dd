import ExprEngine.Proofs.Builtin.Arguments
import ExprEngine.Proofs.Machine.Draws
import Mathlib.Algebra.Ring.Int.Defs

/-!
# Random choices

`rand` picks a number of 31 bits, one below a bound, or one between two bounds; a selector picks a
parameter.  Each choice takes one draw, or none where there is nothing to choose from, and the draw
is brought into the range by a remainder.  There are more numbers in a range than words have signs
for, so the remainder is taken in words of twice the length; there no step exceeds them.

* `Random.betweenByWords_eq`: the computation in 128 bits has the result that is exact.
* `Builtin.exists_picked_between`: what is picked between two bounds.
* `Builtin.seeded_draws`: the draws and choices of a machine whose generator was seeded.
-/

namespace ExprEngine

/-! ### Numbers between bounds -/

namespace Random

/-- The number, if 128 bits with a sign hold it. -/
def wide? (n : Int) : Option Int :=
  if -2 ^ 127 ≤ n ∧ n < 2 ^ 127 then some n else none

/-- A number from `lo` to `hi` that a draw picks, computed in 128 bits; none if a step exceeds them
or the last one exceeds a word. -/
def betweenByWords (lo hi : Int64) (drawn : UInt64) : Option Int64 := do
  let width ← wide? (hi.toInt - lo.toInt)
  let span ← wide? (width + 1)
  if span ≤ 0 then none
  else
    let number ← wide? (lo.toInt + (drawn.toNat : Int) % span)
    Word.checked number

variable {lo hi : Int64}

/-- The number that is picked is exact. -/
theorem toInt_between (h : lo < hi) (drawn : UInt64) :
    (between lo hi drawn).toInt =
      lo.toInt + (drawn.toNat : Int) % (hi.toInt - lo.toInt + 1) := by
  have hlt := Int64.lt_iff_toInt_lt.mp h
  have hspan : 0 < hi.toInt - lo.toInt + 1 := by omega
  have hnonneg := Int.emod_nonneg (drawn.toNat : Int) (Int.ne_of_gt hspan)
  have hless := Int.emod_lt_of_pos (drawn.toNat : Int) hspan
  have hlo := (Word.fits_toInt lo).1
  have hhi := (Word.fits_toInt hi).2
  rw [between, if_neg (Int64.not_le.mpr h), Word.toInt_ofInt]
  constructor <;> omega

theorem between_mem (h : lo < hi) (drawn : UInt64) :
    lo ≤ between lo hi drawn ∧ between lo hi drawn ≤ hi := by
  have hlt := Int64.lt_iff_toInt_lt.mp h
  have hspan : 0 < hi.toInt - lo.toInt + 1 := by omega
  have hnonneg := Int.emod_nonneg (drawn.toNat : Int) (Int.ne_of_gt hspan)
  have hless := Int.emod_lt_of_pos (drawn.toNat : Int) hspan
  rw [Int64.le_iff_toInt_le, Int64.le_iff_toInt_le, toInt_between h]
  constructor <;> omega

theorem wide?_eq {n : Int} (h : -2 ^ 65 ≤ n ∧ n ≤ 2 ^ 65) : wide? n = some n :=
  if_pos (by omega)

/-- **No step of a choice exceeds its words.** -/
theorem betweenByWords_eq (h : lo < hi) (drawn : UInt64) :
    betweenByWords lo hi drawn = some (between lo hi drawn) := by
  have hlt := Int64.lt_iff_toInt_lt.mp h
  have hlo : -2 ^ 63 ≤ lo.toInt := lo.le_toInt
  have hhi : hi.toInt ≤ 2 ^ 63 - 1 := hi.toInt_le
  have hfits := Word.fits_toInt (between lo hi drawn)
  have hexact := toInt_between h drawn
  have hnumber : wide? (lo.toInt + (drawn.toNat : Int) % (hi.toInt - lo.toInt + 1)) =
      some (between lo hi drawn).toInt := by
    rw [← hexact]
    exact wide?_eq ⟨Int.le_trans (by decide) hfits.1, Int.le_trans hfits.2 (by decide)⟩
  have hwidth : wide? (hi.toInt - lo.toInt) = some (hi.toInt - lo.toInt) := wide?_eq (by omega)
  have hspan : wide? (hi.toInt - lo.toInt + 1) = some (hi.toInt - lo.toInt + 1) :=
    wide?_eq (by omega)
  simp only [betweenByWords, hwidth, Option.bind_eq_bind, Option.bind_some, hspan, hnumber,
    Word.checked_toInt]
  exact if_neg (by omega)

end Random

namespace Builtin

open Machine ExprEngine.Random

/-! ### Choices -/

/-- A number was picked, with one draw or without. -/
inductive Picked (m : Machine) (n : Int64) : EStateM.Result Halt Machine Value → Prop
  | kept : Picked m n (.ok (.int n) m)
  | drawn : Picked m n (.ok (.int n) m.drawn)

section

variable (evaluate : String → Eval Value) {m : Machine} (hm : m.random ≠ 0)

include hm

theorem between_apply (lo hi : Int64) :
    random.between lo hi m =
      if hi ≤ lo then .ok (.int lo) m
      else .ok (.int (Random.between lo hi (next m.random))) m.drawn := by
  unfold random.between
  split
  · rfl
  · exact bind_of_ok (draw_apply hm) _

theorem exists_picked_between (lo hi : Int64) :
    ∃ n, Picked m n (random.between lo hi m) ∧ (lo < hi → lo ≤ n ∧ n ≤ hi) ∧
      (hi ≤ lo → n = lo) := by
  rw [between_apply hm]
  by_cases h : hi ≤ lo
  · rw [if_pos h]
    exact ⟨lo, .kept, fun hlt => absurd hlt (Int64.not_lt.mpr h), fun _ => rfl⟩
  · rw [if_neg h]
    exact ⟨_, .drawn, fun hlt => between_mem hlt _, fun hle => absurd hle h⟩

theorem call_rand_zero :
    call evaluate .rand [] m =
      .ok (.int (Int64.ofNat ((next m.random) >>> 33).toNat)) m.drawn :=
  bind_of_ok (draw_apply hm) _

theorem selected_random (h : m.session.params ≠ []) :
    ∃ v ∈ m.session.params, selected .random m = .ok v m.drawn := by
  have hpos : 0 < m.session.params.length := List.length_pos_iff.mpr h
  have hlt : (next m.random).toNat % m.session.params.length < m.session.params.length :=
    Nat.mod_lt _ hpos
  refine ⟨m.session.params[(next m.random).toNat % m.session.params.length],
    List.getElem_mem hlt, ?_⟩
  unfold selected
  rw [bind_of_ok (show getSession m = .ok m.session m from rfl)]
  simp only [List.isEmpty_iff, if_neg h]
  rw [bind_of_ok (draw_apply hm), List.getElem?_eq_getElem hlt]
  rfl

end

section

variable (evaluate : String → Eval Value) (m : Machine)

theorem call_rand_one (a : Int64) :
    call evaluate .rand [.int a] m = random.between 0 (Word.clamp (a.toInt - 1)) m :=
  bind_of_ok (integer_apply rfl) _

theorem call_rand_two (a b : Int64) :
    call evaluate .rand [.int a, .int b] m = random.between (max a 0) b m := by
  have hmax : (if a < 0 then 0 else a) = max a 0 := by
    rw [← Int64.toInt_inj, Word.toInt_max, Int64.toInt_zero]
    split
    · next h => exact (Int.max_eq_right (Int.le_of_lt (Int64.lt_iff_toInt_lt.mp h))).symm
    · next h => exact (Int.max_eq_left (Int64.le_iff_toInt_le.mp (Int64.not_lt.mp h))).symm
  rw [← hmax]
  exact (bind_of_ok (integer_apply rfl) _).trans (bind_of_ok (integer_apply rfl) _)

end

/-- The number before another, or the least one. -/
theorem toInt_clamp_pred (a : Int64) :
    (Word.clamp (a.toInt - 1)).toInt = max (a.toInt - 1) (-2 ^ 63) := by
  have hle : a.toInt ≤ 2 ^ 63 - 1 := a.toInt_le
  have hge : -2 ^ 63 ≤ a.toInt := a.le_toInt
  by_cases h : a.toInt = -2 ^ 63
  · rw [h]
    decide
  · rw [Word.clamp, Int64.toInt_ofIntClamp, Int.max_eq_left (by omega)]
    · rw [Int64.toInt_minValue]
      omega
    · rw [Int64.toInt_maxValue]
      omega

theorem toInt_shiftRight_33 (x : UInt64) :
    0 ≤ (Int64.ofNat (x >>> 33).toNat).toInt ∧
      (Int64.ofNat (x >>> 33).toNat).toInt < 2 ^ 31 := by
  have hx : (x >>> 33).toNat = x.toNat / 2 ^ 33 := by
    rw [UInt64.toNat_shiftRight, Nat.shiftRight_eq_div_pow]
    rfl
  have hlt : x.toNat < 2 ^ 64 := x.toNat_lt
  rw [hx, Int64.toInt_ofNat_of_lt (by omega)]
  omega

/-! ### Machines that were seeded -/

/-- **A generator that was seeded is never seeded again, and what is picked lies in its range.**
Behind a seed no number of draws leads to zero, so the draws depend on the seed alone, whatever
machine and host they are made on; and an evaluation of any source does nothing to the generator but
draw.  In every machine whose generator is not zero, `rand` comes to a number in the range that its
arguments ask for, the least if there is no other, a selector to one of the parameters, and no step
of the computation exceeds its words. -/
theorem seeded_draws (m : Machine) (seed : UInt64) :
    (∀ k, state (seeded seed) k ≠ 0 ∧
      drawMany k (m.seed seed) =
        .ok ((List.range k).map fun i => state (seeded seed) (i + 1))
          { m with random := state (seeded seed) k }) ∧
      (∀ depth source, ∃ k,
        (after (Machine.evaluate depth source) (m.seed seed)).random = state (seeded seed) k) ∧
      ∀ (evaluate : String → Eval Value) (n : Machine), n.random ≠ 0 →
        (∀ a, ∃ x, Picked n x (call evaluate .rand [.int a] n) ∧
          (0 < a → 0 ≤ x ∧ x < a) ∧ (a ≤ 0 → x = 0)) ∧
        (∀ a b, ∃ x, Picked n x (call evaluate .rand [.int a, .int b] n) ∧
          (max a 0 < b → max a 0 ≤ x ∧ x ≤ b) ∧ (b ≤ max a 0 → x = max a 0)) ∧
        (∃ x, Picked n x (call evaluate .rand [] n) ∧ 0 ≤ x.toInt ∧ x.toInt < 2 ^ 31) ∧
        (n.session.params ≠ [] →
          ∃ v ∈ n.session.params, selected .random n = .ok v n.drawn) ∧
        ∀ lo hi, lo < hi → betweenByWords lo hi (next n.random) =
          some (Random.between lo hi (next n.random)) := by
  have hseed : (m.seed seed).random ≠ 0 := seeded_ne_zero seed
  refine ⟨fun k => ⟨state_ne_zero hseed k, drawMany_apply hseed k⟩,
    fun depth source => evaluate_draws depth source _ hseed, fun evaluate n hn => ?_⟩
  refine ⟨fun a => ?_, fun a b => ?_, ?_, selected_random hn, fun lo hi h => betweenByWords_eq h _⟩
  · rw [call_rand_one]
    obtain ⟨x, hx, hmem, hleast⟩ := exists_picked_between hn 0 (Word.clamp (a.toInt - 1))
    have hpred := toInt_clamp_pred a
    simp only [Int64.le_iff_toInt_le, Int64.lt_iff_toInt_lt, Int64.toInt_zero, hpred,
      ← Int64.toInt_inj] at hmem hleast ⊢
    exact ⟨x, hx, by omega, by omega⟩
  · rw [call_rand_two]
    exact exists_picked_between hn (max a 0) b
  · rw [call_rand_zero evaluate hn]
    exact ⟨_, .drawn, toInt_shiftRight_33 _⟩

/-- A machine that was seeded with one, inside a macro with a parameter. -/
theorem seeded_draws_ofOne :
    let n := Machine.seed { session := ({} : Session).pushFrame "m" [.int 7] } 1
    (n.random ≠ 0 ∧ n.session.params ≠ [] ∧ (0 : Int64) < 3 ∧ max 3 0 < (5 : Int64)) ∧
      (∃ x, Picked n x (call (Machine.evaluate 0) .rand [.int 3] n) ∧ 0 ≤ x ∧ x < 3) ∧
      (∃ x, Picked n x (call (Machine.evaluate 0) .rand [.int 3, .int 5] n) ∧
        max 3 0 ≤ x ∧ x ≤ 5) ∧
      (∃ v ∈ n.session.params, selected .random n = .ok v n.drawn) ∧
      betweenByWords 3 5 (next n.random) = some (Random.between 3 5 (next n.random)) := by
  intro n
  have hn : n.random ≠ 0 := by decide
  have hp : n.session.params ≠ [] := List.cons_ne_nil _ _
  obtain ⟨hone, htwo, -, hparam, hwords⟩ := (seeded_draws {} 1).2.2 (Machine.evaluate 0) n hn
  obtain ⟨x, hx, hin, -⟩ := hone 3
  obtain ⟨y, hy, hbetween, -⟩ := htwo 3 5
  exact ⟨⟨hn, hp, by decide, by decide⟩, ⟨x, hx, hin (by decide)⟩, ⟨y, hy, hbetween (by decide)⟩,
    hparam hp, hwords 3 5 (by decide)⟩

end Builtin
end ExprEngine
