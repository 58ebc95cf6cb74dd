import ExprEngine.Grammar.Cursor
import ExprEngine.Grammar.Tree

/-!
# Operands without expressions in them

Numbers, quoted texts, names and the substitutions that stand for a variable, a parameter, a macro's
text or a command's output.

| text                | operand                                                        |
|---------------------|----------------------------------------------------------------|
| `"a"` `'a'`         | a text; a backslash escapes itself and the quote, no more       |
| `{x}` `%x`          | a variable                                                      |
| `{2}` `{L2}` `{-2}` | a parameter, from the front or the end, or all but the first two |
| `{P1}` `{PL}` `{PR}`| a group of the last match, what stands left or right of it      |
| `{x-a}`             | a text in place of an empty variable                            |
| `$x` `${x}`         | the text of a macro                                             |
| `$(echo a)`         | what a command line writes                                      |
-/

namespace ExprEngine.Grammar

/-! ### Numbers and names -/

/-- A number starts here. -/
def startsNumber : List Char → Bool
  | '.' :: c :: _ => c.isDigit
  | c :: _ => c.isDigit
  | [] => false

/-- The number that starts here. -/
def number (c : Cursor) : Except Rejection (Parsed Expr c) :=
  match Literal.parse c.rest with
  | .ok (n, used) =>
    let d := c.advance used
    .ok ⟨.leaf (.value (.ofNumber n)) (c.spanTo d), d, by simp [d]⟩
  | .error e => c.refuse (.number e) ⟨c.pos, c.pos + 1⟩

/-- The name that starts here; behind a slash it is remarked on. -/
def name (slash : Bool) (c : Cursor) : Parsed Expr c :=
  let x := String.ofList (c.takeWhile Ascii.isWord)
  let d := c.skipWhile Ascii.isWord
  have h : d.rest.length ≤ c.rest.length := c.length_skipWhile_le _
  ⟨.leaf (.value (.name x)) (c.spanTo d), if slash then d.note (.afterSlash x) else d, by
    split <;> simpa using h⟩

/-! ### Quoted texts -/

/-- What follows an opening quote: the text, the characters up to and with the closing quote if
there is one, and the needless escapes on the way. -/
structure QuotedText where
  text : List Char := []
  length? : Option Nat := none
  needless : List Char := []

/-- The quoted text with a character more in front, which takes so many characters to write. -/
def QuotedText.cons (c : Char) (written : Nat) (q : QuotedText) : QuotedText :=
  { q with text := c :: q.text, length? := q.length?.map (· + written) }

/-- What a remark shows of an escaped character: its first byte as a character. -/
def leadingByte (c : Char) : Char :=
  match String.utf8EncodeChar c with
  | b :: _ => Char.ofNat b.toNat
  | [] => c

/-- The quoted text behind an opening `quote`. -/
def quotedText (quote : Char) : List Char → QuotedText
  | [] => {}
  | [c] => if c = quote then { length? := some 1 } else { text := [c] }
  | c :: d :: rest =>
    if c = quote then { length? := some 1 }
    else if c = '\\' ∧ (d = quote ∨ d = '\\') then (quotedText quote rest).cons d 2
    else
      let q := (quotedText quote (d :: rest)).cons c 1
      if c = '\\' then { q with needless := leadingByte d :: q.needless } else q

/-- The quoted text that starts here with its opening `quote`. -/
def quoted (quote : Char) (c : Cursor) : Except Rejection (Parsed Expr c) :=
  let q := quotedText quote (c.rest.drop 1)
  let noted : Cursor := q.needless.foldl (fun c escaped => c.note (.needlessEscape quote escaped)) c
  match q.length? with
  | none => noted.refuse (.unclosedQuote quote) (c.spanTo c.atEnd)
  | some n =>
    let d := c.advance (1 + n)
    .ok ⟨.leaf (.value (.text (String.ofList q.text))) (c.spanTo d), { d with notes := noted.notes }, by
      simp [d]⟩

/-! ### Texts of macros and output of commands -/

/-- Number of characters in front of the parenthesis that closes the one before the text. -/
def enclosedLength? : (depth : Nat) → List Char → Option Nat
  | _, [] => none
  | depth, c :: rest =>
    if c = ')' then
      match depth with
      | 0 => some 0
      | depth + 1 => (enclosedLength? depth rest).map (· + 1)
    else (enclosedLength? (if c = '(' then depth + 1 else depth) rest).map (· + 1)

/-- The command line behind `$(`, which starts at `start`. -/
def output (start c : Cursor) : Except Rejection (Parsed Expr c) :=
  match enclosedLength? 0 c.rest with
  | none => c.refuse .unclosedCommand (start.spanTo c.atEnd)
  | some n =>
    let d := c.advance (n + 1)
    .ok ⟨.leaf (.output (c.textTo (c.advance n))) (start.spanTo d), d, by simp [d]⟩

/-- The character may stand in the name of a macro that is substituted. -/
def isBodyName (bracketed : Bool) (c : Char) : Bool :=
  c != '}' && c != '$' && (bracketed || !Ascii.isBlank c)

/-- The macro name behind a dollar sign, which stands at `start`: in braces, or up to a blank or
another dollar sign. -/
def body (start c : Cursor) : Except Rejection (Parsed Expr c) :=
  match c.eat? '{' with
  | some ⟨inside, h⟩ =>
    let closing := inside.skipWhile (isBodyName true)
    have hc : closing.rest.length ≤ inside.rest.length := inside.length_skipWhile_le _
    match closing.eat? '}' with
    | some ⟨d, hd⟩ =>
      .ok ⟨.leaf (.body (inside.textTo closing)) (start.spanTo d), d, by omega⟩
    | none => c.refuse .unclosedName (start.spanTo closing)
  | none =>
    let stop := c.skipWhile (isBodyName false)
    have hs : stop.rest.length ≤ c.rest.length := c.length_skipWhile_le _
    match stop.eat? '$' with
    | some ⟨d, hd⟩ => .ok ⟨.leaf (.body (c.textTo stop)) (start.spanTo d), d, by omega⟩
    | none => .ok ⟨.leaf (.body (c.textTo stop)) (start.spanTo stop), stop, hs⟩

/-! ### Variables and parameters -/

/-- What a substitution's name, or the lack of one, refers to. -/
def namedSubject : String → Subject
  | "R" => .param .random
  | "PL" => .param .captureLeft
  | "PR" => .param .captureRight
  | x => .variable x

/-- The greatest index that can be asked for; a greater one means it. -/
def greatestIndex : Nat := 0xffffffffffffffff

/-- The index that digits stand for. -/
def index (ds : List Char) : Nat :=
  min (Decimal.value ds) greatestIndex

/-- The subject in front of a text, and whether a minus sign in front of it has not been used for
it. With it comes the number of characters that it takes.  Outside of braces a letter and a number
end the subject; in braces they may begin a name. -/
def subject (bracketed except : Bool) (cs : List Char) : Subject × Bool × Nat :=
  let named := cs.takeWhile Ascii.isWord
  let asName : Subject × Bool × Nat := (namedSubject (String.ofList named), except, named.length)
  match cs with
  | '*' :: _ => (.param .all, except, 1)
  | 'L' :: rest =>
    let ds := rest.takeWhile Char.isDigit
    if goesOn ds rest then asName
    else
      let n := if ds.isEmpty then 1 else index ds
      (.param (if except then .allButLast n else .fromLast n), false, ds.length + 1)
  | 'P' :: rest =>
    let ds := rest.takeWhile Char.isDigit
    if goesOn ds rest then asName
    else (.param (.capture (if ds.isEmpty then 1 else index ds)), except, ds.length + 1)
  | _ =>
    let ds := cs.takeWhile Char.isDigit
    if ds.isEmpty then asName
    else match index ds with
      | 0 => (.param .frameName, except, ds.length)
      | n => (.param (if except then .allButFirst n else .nth n), false, ds.length)
where
  /-- A letter and these digits are followed by more of a name. -/
  goesOn (ds rest : List Char) : Bool :=
    (ds.isEmpty || bracketed) && (rest.drop ds.length).head?.any Ascii.isWord

/-- The subject of a substitution that starts at `start`, up to a default or the end. -/
def selected (start : Cursor) (bracketed : Bool) (c : Cursor) : Except Rejection (Parsed Subject c) :=
  match c.rest, bracketed with
  | '#' :: '}' :: _, true | '#' :: _, false => finish 1 (.param .count, false, 0)
  | '?' :: '}' :: _, true | '?' :: _, false => finish 1 (.param .result, false, 0)
  | '-' :: cs, _ => finish 1 (subject bracketed true cs)
  | cs, _ => finish 0 (subject bracketed false cs)
where
  /-- The subject that was found behind so many characters, unless it has a minus sign to spare. -/
  finish (skipped : Nat) : Subject × Bool × Nat → Except Rejection (Parsed Subject c)
    | (s, stray, n) =>
      let d := c.advance (skipped + n)
      if stray then d.refuse .strayExcept (start.spanTo d) else .ok ⟨s, d, by simp [d]⟩

/-- The subject and the default behind it, if there is one. -/
def withDefault (start : Cursor) (bracketed : Bool) (s : Subject) (c : Cursor) : Parsed Expr c :=
  match c.eat? '-' with
  | some ⟨d, h⟩ =>
    let stop := d.skipWhile fun ch => if bracketed then ch != '}' else !Ascii.isBlank ch
    have hs : stop.rest.length ≤ d.rest.length := d.length_skipWhile_le _
    ⟨.fallback s (d.textTo stop) (start.spanTo c) (start.spanTo d) (d.spanTo stop), stop, by omega⟩
  | none => ⟨.leaf s.leaf (start.spanTo c), c, Nat.le_refl _⟩

/-- The substitution that starts here, in braces or without. -/
def substitution (c : Cursor) : Except Rejection (Parsed Expr c) := do
  match c.eat? '{' with
  | some ⟨inside, hi⟩ =>
    let ⟨s, d, hd⟩ ← selected c true inside
    let e := withDefault c true s d
    have he := e.le
    match e.next.eat? '}' with
    | some ⟨stop, hs⟩ => return ⟨e.value, stop, by omega⟩
    | none => e.next.refuse (.badSubstitution e.next.peek?) (c.spanTo e.next)
  | none =>
    let ⟨s, d, hd⟩ ← selected c false c
    return (withDefault c false s d).since hd

/-- The text without the braces around it, if it has them. -/
def withoutBraces (cs : List Char) : List Char :=
  match cs with
  | '{' :: rest => rest.dropLast
  | _ => cs

/-- The substitution that starts here, behind a percent sign, which is remarked on. -/
def percentSubstitution (c : Cursor) : Except Rejection (Parsed Expr c) := do
  let p ← substitution c
  let written := c.textTo p.next
  let inner := String.ofList (withoutBraces written.toList)
  return ⟨p.value, p.next.note (.percent written inner), p.le⟩

end ExprEngine.Grammar
