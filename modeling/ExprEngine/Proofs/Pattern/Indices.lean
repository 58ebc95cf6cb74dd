import ExprEngine.Pattern.Glob.Check
import ExprEngine.Pattern.Glob.Matcher

/-!
# Globs by indices

The matcher and the validator once more, as loops that move indices through the pattern and through
the text.  Whatever reads a byte or cuts a slice looks first whether there is one.  A run is stopped
where there is none, where the index of the text has left the text, and where the matcher is nested
deeper than its budget.

Nothing is assumed of an index here: each of these functions can be called with any numbers.
-/

namespace ExprEngine.Glob.Indexed

/-- Why a run is stopped. -/
inductive Stop where
  | index
  | slice
  | pastText
  | nesting
deriving DecidableEq, Repr

/-- What a run gives, unless it is stopped. -/
abbrev Checked (α : Type) := Except Stop α

/-- The byte at an index. -/
def byteAt (bs : List UInt8) (i : Nat) : Checked UInt8 :=
  match bs[i]? with
  | some b => .ok b
  | none => .error .index

/-- The bytes from one index up to another. -/
def slice (bs : List UInt8) (start stop : Nat) : Checked (List UInt8) :=
  if start ≤ stop ∧ stop ≤ bs.length then .ok ((bs.take stop).drop start) else .error .slice

/-- Index of the first `needle` from an index on that no backslash escapes. -/
def findFrom (needle : UInt8) (bs : List UInt8) (i : Nat) : Checked (Option Nat) := do
  if i < bs.length then
    let b ← byteAt bs i
    if b = byte '\\' then findFrom needle bs (i + 2)
    else if b = needle then return some i
    else findFrom needle bs (i + 1)
  else return none
termination_by bs.length - i

/-! ### Classes -/

/-- Index of the byte that is meant where a byte or a backslash stands. -/
def meantAt (cls : List UInt8) (i : Nat) : Nat :=
  if cls[i]? = some (byte '\\') then i + 1 else i

/-- A dash stands at the index, and behind it something but the closing bracket. -/
def dashAt (cls : List UInt8) (i : Nat) : Bool :=
  cls[i]? == some (byte '-') && cls[i + 1]?.any (· != byte ']')

/-- Number of bytes up to the bracket that closes the class, if the class holds `b`.  The items in
front of the index hold it if `hit`. -/
def classFrom (b : UInt8) (negated : Bool) (cls : List UInt8) (i : Nat) (hit : Bool) :
    Checked (Option Nat) :=
  match _hc : cls[i]? with
  | none => .ok none
  | some c =>
    if c = byte ']' then .ok (if hit ≠ negated then some (i + 1) else none)
    else
      match cls[meantAt cls i]? with
      | none => .ok none
      | some lo =>
        if dashAt cls (meantAt cls i + 1) then do
          let e ← byteAt cls (meantAt cls i + 2)
          let j := if e = byte '\\' then meantAt cls i + 3 else meantAt cls i + 2
          match cls[j]? with
          | none => return none
          | some hi => classFrom b negated cls (j + 1) (hit || inItem b lo (some hi))
        else classFrom b negated cls (meantAt cls i + 1) (hit || inItem b lo none)
termination_by cls.length - i
decreasing_by
  all_goals
    have := (List.getElem?_eq_some_iff.mp _hc).1
    have : i ≤ meantAt cls i := by unfold meantAt; split <;> omega
    repeat split
    all_goals omega

/-- Number of bytes that the class takes up to its closing bracket, if it is closed and holds
`b`. -/
def classMatch (cls : List UInt8) (b : UInt8) : Checked (Option Nat) :=
  if cls[0]? = some (byte '^') then classFrom b true cls 1 false else classFrom b false cls 0 false

/-! ### The matcher -/

/-- A pattern and the text it is tried on. -/
structure Trial where
  pat : List UInt8
  text : List UInt8

/-- A matcher, to be called with the end of an alternative, an index of the pattern and one of the
text. -/
abbrev Nested := Option Nat → Nat → Nat → Checked Bool

namespace Trial

variable (g : Trial) (nested : Nested) (wordEnd : Option Nat) (p s : Nat)

/-- A word may start at an index of the text. -/
def startsWord : Checked Bool :=
  if s = 0 then .ok true else do return (← byteAt g.text (s - 1)) == byte ' '

/-- A word may end at an index of the text. -/
def endsWord : Bool :=
  match g.text[s]? with
  | none => true
  | some b => b == byte ' '

theorem lt_of_endsWord {g : Trial} {s : Nat} (h : ¬g.endsWord s = true) : s < g.text.length := by
  rw [endsWord] at h
  cases hs : g.text[s]? with
  | none => simp [hs] at h
  | some b => exact (List.getElem?_eq_some_iff.mp hs).1

/-- Index of the text at which the word ends. -/
def wordEndFrom (s : Nat) : Nat :=
  if g.endsWord s then s else wordEndFrom (s + 1)
termination_by g.text.length - s
decreasing_by
  have := lt_of_endsWord ‹_›
  omega

/-- Where the pattern ends: with the alternative, if inside one. -/
def patEnd : Nat :=
  wordEnd.getD g.pat.length

/-- The byte at an index of the text is taken if there is one and `ok` admits it. -/
def take (ok : UInt8 → Bool) (next : Checked Bool) : Checked Bool :=
  match g.text[s]? with
  | none => .ok false
  | some c => if ok c then next else .ok false

/-- The indices behind the stars and question marks that stand from here on. -/
def skipRun (inWord : Bool) (patEnd p s : Nat) : Checked (Option (Nat × Nat)) := do
  if p < patEnd then
    let b ← byteAt g.pat p
    if b = byte '*' then skipRun inWord patEnd (p + 1) s
    else if b = byte '?' then
      match g.text[s]? with
      | none => return none
      | some c =>
        if inWord && c == byte ' ' then return none else skipRun inWord patEnd (p + 1) (s + 1)
    else return some (p, s)
  else return some (p, s)
termination_by patEnd - p

/-- The test holds at one of the indices from here up to the end of the word. -/
def anyWithin (test : Nat → Checked Bool) (s : Nat) : Checked Bool := do
  if g.endsWord s then test s
  else if ← test s then return true
  else anyWithin test (s + 1)
termination_by g.text.length - s
decreasing_by
  have := lt_of_endsWord ‹_›
  omega

/-- The test holds at one of `n` indices from here on. -/
def anyOnward (test : Nat → Checked Bool) : Nat → Nat → Checked Bool
  | _, 0 => .ok false
  | s, n + 1 => do if ← test s then return true else anyOnward test (s + 1) n

/-- What stands behind a row of stars, the byte `b` first, is tried at each index of the text at
which it may start. -/
def tryOnward (b : UInt8) (p s : Nat) : Checked Bool :=
  if b = byte '{' then
    let test i := do if ← g.startsWord i then nested none p i else return false
    anyOnward test s (g.text.length + 1 - s)
  else if b = byte '[' then anyOnward (nested none p) s (g.text.length - s)
  else
    let lit := if b = byte '\\' then g.pat[p + 1]?.getD b else b
    let test i := do
      if Ascii.sameLetter (← byteAt g.text i) lit then nested none p i else return false
    anyOnward test s (g.text.length - s)

/-- A row of stars, and what stands behind it. -/
def star : Checked Bool := do
  match ← g.skipRun wordEnd.isSome (g.patEnd wordEnd) p s with
  | none => return false
  | some (p, s) =>
    if wordEnd.isSome then g.anyWithin (nested wordEnd p) s
    else
      match g.pat[p]? with
      | none => return true
      | some b => g.tryOnward nested b p s

/-- One of the alternatives from an index up to `close` matches. -/
def alternatives (close alt : Nat) : Checked Bool := do
  let found ← findFrom (byte '|') (← slice g.pat alt close) 0
  let bar := found.elim close (alt + ·)
  if ← nested (some bar) alt s then return true
  else if close ≤ bar then return false
  else alternatives close (bar + 1)
termination_by close - alt
decreasing_by
  cases found with
  | none => exact absurd (Nat.le_refl close) ‹_›
  | some i =>
      have hbar : ¬close ≤ alt + i := ‹_›
      rw [Option.elim_some]
      omega

/-- Number of bytes that the class behind the `[` at an index of the pattern takes, if it takes the
byte at an index of the text. -/
def classStep : Checked (Option Nat) := do
  match g.text[s]? with
  | none => return none
  | some c =>
    if wordEnd.isSome && c == byte ' ' then return none
    else classMatch (← slice g.pat (p + 1) g.pat.length) c

/-- Number of bytes up to the brace that closes the alternation at an index of the pattern, if one
of its alternatives matches a word here. -/
def wordStep : Checked (Option Nat) := do
  if ← g.startsWord s then
    match ← findFrom (byte '}') (← slice g.pat p g.pat.length) 0 with
    | none => return none
    | some i => if ← g.alternatives nested s (p + i) (p + 1) then return some i else return none
  else return none

/-- The loop of the matcher: what is left of the pattern and of the text from two indices on. -/
def run (p s : Nat) : Checked Bool := do
  if g.text.length < s then throw .pastText
  else if g.patEnd wordEnd ≤ p then
    return if wordEnd.isSome then g.endsWord s else decide (g.text.length ≤ s)
  else
    let b ← byteAt g.pat p
    if b = byte '\\' then
      match g.pat[p + 1]? with
      | none => return decide (g.text.length ≤ s)
      | some lit => g.take s (Ascii.sameLetter · lit) (run (p + 2) (s + 1))
    else if b = byte '?' then
      g.take s (fun c => !(wordEnd.isSome && c == byte ' ')) (run (p + 1) (s + 1))
    else if b = byte '*' then g.star nested wordEnd p s
    else if b = byte '[' then
      match ← g.classStep wordEnd p s with
      | none => return false
      | some used => run (p + 1 + used) (s + 1)
    else if b = byte '{' ∧ wordEnd.isNone then
      match ← g.wordStep nested p s with
      | none => return false
      | some i => run (p + i + 1) (g.wordEndFrom s)
    else g.take s (Ascii.sameLetter · b) (run (p + 1) (s + 1))
termination_by g.patEnd wordEnd - p

/-- The matcher with a budget, called from `level` matchers around it. -/
def matchFrom : Nat → Nat → Nested
  | 0, level, _, _, _ => if budget < level then .error .nesting else .ok false
  | depth + 1, level, wordEnd, p, s =>
    if budget < level then .error .nesting
    else g.run (matchFrom depth (level + 1)) wordEnd p s

end Trial

/-- The pattern matches the whole text. -/
def isMatch (pattern text : List UInt8) : Checked Bool :=
  Trial.matchFrom ⟨pattern, text⟩ budget 0 none 0 0

/-! ### The validator -/

/-- The first fault of a pattern from an index on, inside an alternation or not. -/
def checkFrom (bs : List UInt8) (inWord : Bool) (i : Nat) : Checked (Option Malformed) := do
  if i < bs.length then
    let b ← byteAt bs i
    if b = byte '\\' then checkFrom bs inWord (i + 2)
    else if b = byte '[' then
      match ← findFrom (byte ']') (← slice bs i bs.length) 0 with
      | none => return some .unclosedClass
      | some n => checkFrom bs inWord (i + (n + 1))
    else if b = byte '{' then
      if inWord then return some .nestedWord
      else if i = 0 then checkFrom bs true (i + 1)
      else
        let c ← byteAt bs (i - 1)
        if mayPrecedeWord c then checkFrom bs true (i + 1) else return some (.beforeWord c)
    else if b = byte '}' then
      match bs[i + 1]? with
      | none => checkFrom bs false (i + 1)
      | some c => if mayFollowWord c then checkFrom bs false (i + 1) else return some (.afterWord c)
    else if b = byte ' ' ∧ inWord then return some .spaceInWord
    else checkFrom bs inWord (i + 1)
  else return if inWord then some .unclosedWord else none
termination_by bs.length - i

/-- The reason to refuse a pattern, if there is one. -/
def check (pattern : List UInt8) : Checked (Option Malformed) :=
  checkFrom pattern false 0

end ExprEngine.Glob.Indexed
