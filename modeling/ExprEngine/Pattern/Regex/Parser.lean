import ExprEngine.Pattern.Regex.Normal

/-!
# Reading regular expressions

The notation: literals, `.`, `^` and `$`, escapes and classes of characters, groups that capture,
that do not, or that have a name, flags for a group or for the rest of one, alternatives, and
repetitions, greedy or not.  Look-around, back-references and unknown escapes are refused.

The reader goes over the text once, with a stack of the groups that are still open; every step
leaves a shorter text.
-/

namespace ExprEngine.Regex

/-- Flags in force at a place of the expression. -/
structure Flags where
  caseless : Bool := false
  dotAll : Bool := false
  multiLine : Bool := false
  swapGreed : Bool := false
deriving DecidableEq

/-- A group that is open: the flags to return to, its number if it captures, the branches that are
complete and the items of the last one, the latest first.  A directive that only sets flags is an
item of its own, which nothing can repeat. -/
structure OpenGroup where
  outer : Flags
  capture : Option Nat
  branches : List Tree := []
  items : List (Option Tree) := []

namespace OpenGroup

/-- The group with an item more. -/
def push (g : OpenGroup) (r : Tree) : OpenGroup :=
  { g with items := some r :: g.items }

/-- The items of the last branch as one expression. -/
def lastBranch (g : OpenGroup) : Tree :=
  Tree.sequence (g.items.reverse.filterMap id)

/-- The group with its last branch completed. -/
def nextBranch (g : OpenGroup) : OpenGroup :=
  { g with branches := g.lastBranch :: g.branches, items := [] }

/-- The expression in the group. -/
def body (g : OpenGroup) : Tree :=
  Tree.choice g.nextBranch.branches.reverse

/-- The closed group. -/
def close (g : OpenGroup) : Tree :=
  match g.capture with
  | some n => .group n g.body
  | none => g.body

end OpenGroup

/-! ### Escapes -/

/-- What a backslash and the characters after it stand for. -/
inductive Escape where
  | char (c : Char)
  | set (s : CharSet)
  | look (l : Look)

/-- The value of a hexadecimal digit. -/
def hexValue? (c : Char) : Option Nat :=
  if c.isDigit then some (c.toNat - '0'.toNat)
  else if 'a' ≤ c ∧ c ≤ 'f' then some (c.toNat - 'a'.toNat + 10)
  else if 'A' ≤ c ∧ c ≤ 'F' then some (c.toNat - 'A'.toNat + 10)
  else none

/-- The character that a run of hexadecimal digits names. -/
def hexChar? (ds : List Char) : Option Char := do
  guard !ds.isEmpty
  let n ← ds.foldlM (fun n c => (hexValue? c).map (16 * n + ·)) 0
  guard n.isValidChar
  return Char.ofNat n

/-- A character code behind `\x`, `\u` or `\U`: so many digits, or any number of them in braces. -/
def hexEscape? (width : Nat) (cs : List Char) : Option (Char × List Char) :=
  match cs with
  | '{' :: rest =>
    match Text.splitAtFirst (· == '}') rest with
    | some (ds, rest) => (hexChar? ds).map (·, rest)
    | none => none
  | _ => if cs.length < width then none else (hexChar? (cs.take width)).map (·, cs.drop width)

/-- The conditions on words that have names. -/
def namedBoundary? : String → Option Look
  | "start" => some .wordStart
  | "end" => some .wordEnd
  | "start-half" => some .noWordBefore
  | "end-half" => some .noWordAfter
  | _ => none

/-- The condition behind `\b`, with its name in braces where it is not the boundary. -/
def boundary (cs : List Char) : Look × List Char :=
  match cs with
  | '{' :: named =>
    match Text.splitAtFirst (· == '}') named with
    | some (name, rest) =>
      match namedBoundary? (String.ofList name) with
      | some l => (l, rest)
      | none => (.boundary, cs)
    | none => (.boundary, cs)
  | _ => (.boundary, cs)

/-- The escape behind a backslash and what follows it. -/
def escape? (cs : List Char) : Option (Escape × List Char) :=
  match cs with
  | [] => none
  | c :: rest =>
    match c with
    | 'd' => some (.set .digit, rest)
    | 'D' => some (.set (.compl .digit), rest)
    | 's' => some (.set .space, rest)
    | 'S' => some (.set (.compl .space), rest)
    | 'w' => some (.set .word, rest)
    | 'W' => some (.set (.compl .word), rest)
    | 'a' => some (.char '\x07', rest)
    | 'f' => some (.char '\x0c', rest)
    | 't' => some (.char '\t', rest)
    | 'n' => some (.char '\n', rest)
    | 'r' => some (.char '\r', rest)
    | 'v' => some (.char '\x0b', rest)
    | 'A' => some (.look .textStart, rest)
    | 'z' => some (.look .textEnd, rest)
    | 'b' => let (l, rest) := boundary rest; some (.look l, rest)
    | 'B' => some (.look .noBoundary, rest)
    | 'x' => (hexEscape? 2 rest).map fun (c, rest) => (.char c, rest)
    | 'u' => (hexEscape? 4 rest).map fun (c, rest) => (.char c, rest)
    | 'U' => (hexEscape? 8 rest).map fun (c, rest) => (.char c, rest)
    | '<' => some (.look .wordStart, rest)
    | '>' => some (.look .wordEnd, rest)
    | _ => if c.toNat < 0x80 && !c.isAlphanum then some (.char c, rest) else none

/-! ### Classes in brackets -/

/-- A set with its case differences added where case does not matter. -/
def CharSet.fold (caseless : Bool) (s : CharSet) : CharSet :=
  if caseless then .folded s else s

/-- How two parts of a class combine. -/
inductive ClassOp where
  | inter
  | diff
  | symDiff

/-- The combination of two parts of a class. -/
def ClassOp.apply (caseless : Bool) (op : ClassOp) (a b : CharSet) : CharSet :=
  let a := a.fold caseless
  let b := b.fold caseless
  match op with
  | .inter => .inter a b
  | .diff => .inter a (.compl b)
  | .symDiff => .union (.inter a (.compl b)) (.inter b (.compl a))

/-- A class that is open: turned around or not, the operand and operator before the current part,
and the items of that part. -/
structure OpenClass where
  negated : Bool
  pending : Option (CharSet × ClassOp) := none
  items : CharSet := .empty

namespace OpenClass

/-- The class with an item more. -/
def push (k : OpenClass) (s : CharSet) : OpenClass :=
  { k with items := .union k.items s }

/-- All that has been read of the class, without its negation. -/
def value (caseless : Bool) (k : OpenClass) : CharSet :=
  match k.pending with
  | some (a, op) => op.apply caseless a k.items
  | none => k.items

/-- The class at an operator: what was read becomes the left operand. -/
def combine (caseless : Bool) (op : ClassOp) (k : OpenClass) : OpenClass :=
  { k with pending := some (k.value caseless, op), items := .empty }

/-- The closed class. -/
def close (caseless : Bool) (k : OpenClass) : CharSet :=
  let s := (k.value caseless).fold caseless
  if k.negated then .compl s else s

end OpenClass

/-- The named ASCII classes, as ranges. -/
def namedClass? : String → Option (List (Nat × Nat))
  | "alnum" => some [(48, 57), (65, 90), (97, 122)]
  | "alpha" => some [(65, 90), (97, 122)]
  | "ascii" => some [(0, 127)]
  | "blank" => some [(9, 9), (32, 32)]
  | "cntrl" => some [(0, 31), (127, 127)]
  | "digit" => some [(48, 57)]
  | "graph" => some [(33, 126)]
  | "lower" => some [(97, 122)]
  | "print" => some [(32, 126)]
  | "punct" => some [(33, 47), (58, 64), (91, 96), (123, 126)]
  | "space" => some [(9, 13), (32, 32)]
  | "upper" => some [(65, 90)]
  | "word" => some [(48, 57), (65, 90), (95, 95), (97, 122)]
  | "xdigit" => some [(48, 57), (65, 70), (97, 102)]
  | _ => none

/-- A named class such as `[:alpha:]`, read from behind its bracket. -/
def asciiClass? (cs : List Char) : Option (CharSet × List Char) :=
  match cs with
  | ':' :: cs =>
    let (negated, cs) : Bool × List Char := match cs with
      | '^' :: cs => (true, cs)
      | _ => (false, cs)
    match Text.splitAtFirst (· == ':') cs with
    | some (name, ']' :: rest) =>
      (namedClass? (String.ofList name)).map fun ranges =>
        let s := CharSet.ofRanges ranges
        (if negated then s.compl else s, rest)
    | _ => none
  | _ => none

/-- An item of a class: a character, or the set that an escape stands for. -/
def classItem? (cs : List Char) : Option (Escape × List Char) :=
  match cs with
  | '\\' :: rest => escape? rest
  | c :: rest => some (.char c, rest)
  | [] => none

/-- A range or a single item of a class. -/
def classRange? (cs : List Char) : Option (CharSet × List Char) := do
  let (first, rest) ← classItem? cs
  let single : Option (CharSet × List Char) := match first with
    | .char c => some (.single c, rest)
    | .set s => some (s, rest)
    | .look _ => none
  match rest with
  | [] => none
  | '-' :: ']' :: _ | '-' :: '-' :: _ => single
  | '-' :: rest =>
    let (second, rest) ← classItem? rest
    match first, second with
    | .char a, .char b => if a ≤ b then some (.range a b, rest) else none
    | _, _ => none
  | _ => single

/-- The dashes and the closing bracket in front of a class, which stand for themselves there. -/
def classStart (negated : Bool) (cs : List Char) : OpenClass × List Char :=
  let dashes := cs.takeWhile (· == '-')
  let rest := cs.dropWhile (· == '-')
  let k : OpenClass := { negated }
  if !dashes.isEmpty then (k.push (.single '-'), rest)
  else match rest with
    | ']' :: rest => (k.push (.single ']'), rest)
    | _ => (k, rest)

/-- A class whose bracket has been read. -/
def openClass (cs : List Char) : OpenClass × List Char :=
  match cs with
  | '^' :: rest => classStart true rest
  | _ => classStart false cs

/-- The rest of a class, with the classes it stands in; `fuel` bounds the characters left. -/
def classBody (caseless : Bool) :
    (fuel : Nat) → OpenClass → List OpenClass → List Char → Option (CharSet × List Char)
  | 0, _, _, _ => none
  | fuel + 1, k, outer, cs =>
    match cs with
    | [] => none
    | '[' :: rest =>
      match asciiClass? rest with
      | some (s, rest) => classBody caseless fuel (k.push s) outer rest
      | none =>
        let (inner, rest) := openClass rest
        classBody caseless fuel inner (k :: outer) rest
    | ']' :: rest =>
      match outer with
      | [] => some (k.close caseless, rest)
      | parent :: outer => classBody caseless fuel (parent.push (k.close caseless)) outer rest
    | '&' :: '&' :: rest => classBody caseless fuel (k.combine caseless .inter) outer rest
    | '-' :: '-' :: rest => classBody caseless fuel (k.combine caseless .diff) outer rest
    | '~' :: '~' :: rest => classBody caseless fuel (k.combine caseless .symDiff) outer rest
    | _ =>
      match classRange? cs with
      | some (s, rest) => classBody caseless fuel (k.push s) outer rest
      | none => none

/-- A class, read from behind its bracket. -/
def class? (caseless : Bool) (cs : List Char) : Option (CharSet × List Char) :=
  let (k, rest) := openClass cs
  classBody caseless (cs.length + 1) k [] rest

/-! ### Repetitions -/

/-- A count between white space. -/
def count? (cs : List Char) : Option (Nat × List Char) :=
  let cs := Text.trimStart cs
  let ds := cs.takeWhile Char.isDigit
  let n := ds.foldl (fun n c => 10 * n + (c.toNat - '0'.toNat)) 0
  if ds.isEmpty || 0x100000000 ≤ n then none else some (n, Text.trimStart (cs.dropWhile Char.isDigit))

/-- The bounds of a counted repetition, read from behind its brace. -/
def bounds? (cs : List Char) : Option (Nat × Option Nat × List Char) := do
  let (min, rest) ← count? cs
  match rest with
  | '}' :: rest => some (min, some min, rest)
  | ',' :: '}' :: rest => some (min, none, rest)
  | ',' :: rest =>
    let (max, rest) ← count? rest
    match rest with
    | '}' :: rest => if min ≤ max then some (min, some max, rest) else none
    | _ => none
  | _ => none

/-- The repetition of the last item of a group, greedy unless a question mark follows. -/
def repeatLast (flags : Flags) (g : OpenGroup) (min : Nat) (max : Option Nat) (cs : List Char) :
    Option (OpenGroup × List Char) :=
  match g.items with
  | some r :: items =>
    let (lazily, rest) : Bool × List Char := match cs with
      | '?' :: rest => (true, rest)
      | _ => (false, cs)
    some ({ g with items := some (.repeated r min max (lazily == flags.swapGreed)) :: items }, rest)
  | _ => none

/-! ### Groups -/

/-- One flag switched on or off. -/
def setFlag? (flags : Flags) (on : Bool) : Char → Option Flags
  | 'i' => some { flags with caseless := on }
  | 's' => some { flags with dotAll := on }
  | 'm' => some { flags with multiLine := on }
  | 'U' => some { flags with swapGreed := on }
  | 'u' => if on then some flags else none
  | _ => none

/-- Flags up to the colon or parenthesis that ends them, each named at most once, a dash switching
off those behind it. -/
def flags? (flags : Flags) (on : Bool) (seen : List Char) :
    List Char → Option (Flags × Bool × List Char)
  | [] => none
  | ':' :: rest => if seen.head? = some '-' then none else some (flags, true, rest)
  | ')' :: rest => if seen.isEmpty || seen.head? = some '-' then none else some (flags, false, rest)
  | '-' :: rest => if seen.contains '-' then none else flags? flags false ('-' :: seen) rest
  | c :: rest =>
    if seen.contains c then none
    else match setFlag? flags on c with
      | some flags => flags? flags on (c :: seen) rest
      | none => none

/-- The name of a group and what follows its bracket. -/
def groupName? (cs : List Char) : Option (String × List Char) :=
  match Text.splitAtFirst (· == '>') cs with
  | some (c :: name, rest) =>
    let isLetter (c : Char) := c == '_' || (Text.isWordChar c && !Text.isDecimalDigit c)
    let isInner (c : Char) := Text.isWordChar c || c == '.' || c == '[' || c == ']'
    if isLetter c && name.all isInner then some (String.ofList (c :: name), rest) else none
  | _ => none

/-! ### The reader -/

/-- Where the reader stands: flags in force, groups read so far and their names, the innermost group
and those around it. -/
structure Reader where
  flags : Flags
  groups : Nat := 0
  names : List String := []
  current : OpenGroup
  outer : List OpenGroup := []

namespace Reader

/-- The reader with an item more in the innermost group. -/
def push (r : Reader) (t : Tree) : Reader :=
  { r with current := r.current.push t }

/-- The reader inside a new group. -/
def openGroup (r : Reader) (flags : Flags) (capture : Option Nat) : Reader :=
  { r with flags, current := { outer := r.flags, capture }, outer := r.current :: r.outer }

/-- The reader inside a new capturing group. -/
def openCapture (r : Reader) : Reader :=
  { r.openGroup r.flags (some (r.groups + 1)) with groups := r.groups + 1 }

/-- The reader behind an opening parenthesis. -/
def parenthesis (r : Reader) (cs : List Char) : Option (Reader × List Char) :=
  let named (cs : List Char) : Option (Reader × List Char) := do
    let (name, rest) ← groupName? cs
    guard !r.names.contains name
    return ({ r.openCapture with names := name :: r.names }, rest)
  match cs with
  | '?' :: 'P' :: '<' :: rest => named rest
  | '?' :: '<' :: '=' :: _ | '?' :: '<' :: '!' :: _ | '?' :: '=' :: _ | '?' :: '!' :: _ => none
  | '?' :: '<' :: rest => named rest
  | '?' :: rest =>
    match flags? r.flags true [] rest with
    | some (flags, true, rest) => some (r.openGroup flags none, rest)
    | some (flags, false, rest) =>
      some ({ r with flags, current := { r.current with items := none :: r.current.items } }, rest)
    | none => none
  | _ => some (r.openCapture, cs)

/-- The reader behind one more piece of the expression, and what follows the piece. -/
def step (r : Reader) (c : Char) (rest : List Char) : Option (Reader × List Char) :=
  match c with
  | '(' => r.parenthesis rest
  | ')' =>
    match r.outer with
    | [] => none
    | parent :: outer =>
      some ({ r with flags := r.current.outer, current := parent.push r.current.close, outer }, rest)
  | '|' => some ({ r with current := r.current.nextBranch }, rest)
  | '[' => (class? r.flags.caseless rest).map fun (s, rest) => (r.push (.ofSet s), rest)
  | '*' => repeated (0, none, rest)
  | '+' => repeated (1, none, rest)
  | '?' => repeated (0, some 1, rest)
  | '{' => (bounds? rest).bind repeated
  | '.' =>
    some (r.push (.ofSet (if r.flags.dotAll then .any else .compl (.single '\n'))), rest)
  | '^' => some (r.push (.look (if r.flags.multiLine then .lineStart else .textStart)), rest)
  | '$' => some (r.push (.look (if r.flags.multiLine then .lineEnd else .textEnd)), rest)
  | '\\' =>
    (escape? rest).map fun (e, rest) => match e with
      | .char c => (literal c, rest)
      | .set s => (r.push (.ofSet s), rest)
      | .look l => (r.push (.look l), rest)
  | c => some (literal c, rest)
where
  /-- A character, in either case where case does not matter. -/
  literal (c : Char) : Reader :=
    r.push (.ofSet ((CharSet.single c).fold r.flags.caseless))
  /-- The last item repeated. -/
  repeated (b : Nat × Option Nat × List Char) : Option (Reader × List Char) :=
    (repeatLast r.flags r.current b.1 b.2.1 b.2.2).map fun (g, rest) => ({ r with current := g }, rest)

/-- The expression read from here to the end; `fuel` bounds the characters left. -/
def finish : (fuel : Nat) → Reader → List Char → Option Tree
  | _, r, [] => if r.outer.isEmpty then some r.current.body else none
  | 0, _, _ :: _ => none
  | fuel + 1, r, c :: rest =>
    match r.step c rest with
    | some (r, rest) => finish fuel r rest
    | none => none

end Reader

/-- The expression that a text denotes, if it is one. -/
def parse? (flags : Flags) (cs : List Char) : Option Tree :=
  Reader.finish cs.length { flags, current := { outer := flags, capture := none } } cs

end ExprEngine.Regex
