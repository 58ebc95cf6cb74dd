import ExprEngine.Pattern.Regex.Tree

/-!
# Matching regular expressions

An expression becomes a list of steps, which a backtracking search follows in order of preference:
the leftmost match wins, and among those that start there the one that the alternatives and
repetitions prefer.

A pair of step and place that was tried once is not tried again: it failed then and would fail now.
So the search makes at most one visit to each pair, which bounds its length.
-/

namespace ExprEngine.Regex

/-- A step of a compiled expression.  A step that does not say where to go on goes on with the next
one. -/
inductive Step where
  | take (s : CharSet)
  | look (l : Look)
  | save (slot : Nat)
  | split (first second : Nat)
  | goto (target : Nat)
  | done

/-- A choice between two targets, in the other order where less is preferred. -/
def Step.prefer (greedy : Bool) (more less : Nat) : Step :=
  if greedy then .split more less else .split less more

namespace Tree

/-- `n` copies of a piece of code, given where it starts. -/
def copies (code : Nat → List Step) : (n start : Nat) → List Step
  | 0, _ => []
  | n + 1, start =>
    let first := code start
    first ++ copies code n (start + first.length)

/-- `n` copies of a piece of code of `size` steps, each of which may be left out together with those
behind it. -/
def optional (code : Nat → List Step) (size : Nat) (greedy : Bool) (stop : Nat) :
    (n start : Nat) → List Step
  | 0, _ => []
  | n + 1, start =>
    .prefer greedy (start + 1) stop :: code (start + 1) ++
      optional code size greedy stop n (start + 1 + size)

/-- One or more copies. -/
def loop (code : Nat → List Step) (greedy : Bool) (start : Nat) : List Step :=
  let body := code start
  body ++ [.prefer greedy start (start + body.length + 1)]

/-- The code of an expression that starts at the step `start`. -/
def code : Tree → (start : Nat) → List Step
  | .empty, _ => []
  | .literal cs, _ => cs.map fun c => .take (.single c)
  | .set s, _ => [.take s]
  | .look l, _ => [.look l]
  | .group n r, start => .save (2 * n) :: r.code (start + 1) ++ [.save (2 * n + 1)]
  | .concat a b, start =>
    let first := a.code start
    first ++ b.code (start + first.length)
  | .alternate a b, start =>
    let first := a.code (start + 1)
    let second := b.code (start + 1 + first.length + 1)
    .split (start + 1) (start + 1 + first.length + 1) :: first ++
      .goto (start + 1 + first.length + 1 + second.length) :: second
  | .repeat r min max greedy, start =>
    match max with
    | none =>
      if min = 0 then
        let body := r.code (start + 1)
        let stop := start + 1 + body.length + 1
        if r.nullable then .prefer greedy (start + 1) stop :: loop r.code greedy (start + 1)
        else .prefer greedy (start + 1) stop :: body ++ [.goto start]
      else
        let before := copies r.code (min - 1) start
        before ++ loop r.code greedy (start + before.length)
    | some max =>
      let before := copies r.code min start
      let start := start + before.length
      let size := (r.code start).length
      before ++ optional r.code size greedy (start + (max - min) * (size + 1)) (max - min) start

/-- The complete program of an expression, which saves where the match starts and ends. -/
def program (r : Tree) : Array Step :=
  (Step.save 0 :: r.code 1 ++ [Step.save 1, Step.done]).toArray

end Tree

/-- Places saved so far, the latest first. -/
abbrev Slots := List (Nat × Nat)

/-- A step to try at a place of the text. -/
structure Job where
  pc : Nat
  place : Nat
  slots : Slots

/-- Pairs of step and place, each visited or not. -/
structure Visited where
  places : Nat
  marks : Array Bool

namespace Visited

/-- Nothing visited, for so many steps and a text of so many characters. -/
def none (steps length : Nat) : Visited :=
  ⟨length + 1, Array.replicate (steps * (length + 1)) false⟩

/-- The pair was visited. -/
def contains (v : Visited) (pc place : Nat) : Bool :=
  v.marks.getD (pc * v.places + place) true

/-- The pair is visited from now on. -/
def insert (v : Visited) (pc place : Nat) : Visited :=
  { v with marks := v.marks.set! (pc * v.places + place) true }

end Visited

/-- What a step leads to: the end of the search, or further jobs in order of preference. -/
def Job.run (steps : Array Step) (text : Array Char) (j : Job) : Slots ⊕ List Job :=
  match steps[j.pc]? with
  | none => .inr []
  | some (.take s) =>
    match text[j.place]? with
    | some c => .inr (if s.contains c.toNat then [⟨j.pc + 1, j.place + 1, j.slots⟩] else [])
    | none => .inr []
  | some (.look l) =>
    let before := if j.place = 0 then none else text[j.place - 1]?
    .inr (if l.holds before text[j.place]? then [⟨j.pc + 1, j.place, j.slots⟩] else [])
  | some (.save slot) => .inr [⟨j.pc + 1, j.place, (slot, j.place) :: j.slots⟩]
  | some (.split a b) => .inr [⟨a, j.place, j.slots⟩, ⟨b, j.place, j.slots⟩]
  | some (.goto a) => .inr [⟨a, j.place, j.slots⟩]
  | some .done => .inl j.slots

/-- The search through the jobs in order.  Each visit adds at most two jobs, so `fuel` of twice the
number of pairs and the first job is enough. -/
def search (steps : Array Step) (text : Array Char) :
    (fuel : Nat) → Visited → List Job → Option Slots × Visited
  | 0, v, _ => (none, v)
  | _, v, [] => (none, v)
  | fuel + 1, v, j :: jobs =>
    if v.contains j.pc j.place then search steps text fuel v jobs
    else
      let v := v.insert j.pc j.place
      match j.run steps text with
      | .inl slots => (some slots, v)
      | .inr more => search steps text fuel v (more ++ jobs)

/-- The first match that starts at `start` or one of the `n` places behind it. -/
def searchFrom (steps : Array Step) (text : Array Char) :
    (n start : Nat) → Visited → Option Slots
  | n, start, v =>
    match search steps text (2 * v.marks.size + 2) v [⟨0, start, []⟩] with
    | (some slots, _) => some slots
    | (none, v) =>
      match n with
      | 0 => none
      | n + 1 => searchFrom steps text n (start + 1) v

/-- The place that was saved last in a slot. -/
def Slots.get? (slots : Slots) (slot : Nat) : Option Nat :=
  (slots.find? (·.1 == slot)).map (·.2)

namespace Tree

/-- Number of the last group. -/
def groupCount : Tree → Nat
  | .empty | .literal _ | .set _ | .look _ => 0
  | .group n r => max n r.groupCount
  | .concat a b | .alternate a b => max a.groupCount b.groupCount
  | .repeat r _ _ _ => r.groupCount

/-- Start and end of the leftmost match and of each of its groups, in characters. -/
def find? (r : Tree) (text : List Char) : Option ((Nat × Nat) × List (Option (Nat × Nat))) := do
  let steps := r.program
  let text := text.toArray
  let slots ← searchFrom steps text text.size 0 (.none steps.size text.size)
  let span (n : Nat) : Option (Nat × Nat) := do return (← slots.get? (2 * n), ← slots.get? (2 * n + 1))
  return (← span 0, (List.range r.groupCount).map fun n => span (n + 1))

end Tree

end ExprEngine.Regex
