import ExprEngine.Machine.Run
import ExprEngine.Proofs.Text.Bytes

/-!
# Compiling byte by byte

The grammar once more, over the bytes of a source.  This compiler stands at an index of the bytes,
looks at one byte at a time, cuts what it has found out of the text, and makes each remark where it
finds the reason, on the machine that it compiles for.  Cutting is partial: there is no text between
two indices that are out of order, out of range or inside a character.

* `Bytewise.Stop`: the ends of a compilation other than an expression.
* `Bytewise.sequence` and those that follow it: one function a precedence, with so many calls to go.
* `Bytewise.compile`: the program of a source and the machine afterwards, unless a text is cut where
  there is none.
-/

namespace ExprEngine

namespace Bytewise

open Grammar

/-! ### Steps -/

/-- Why a source is not read to its end. -/
inductive Stop where
  | refused (e : CompileError)
  /-- There is no text between these indices. -/
  | noText (start stop : Nat)
  /-- No call is left. -/
  | spent

/-- How far a source is read, and the machine that it is compiled for. -/
structure Progress where
  pos : Nat := 0
  machine : Machine

/-- A step in a source. -/
abbrev Scan (α : Type) := ReaderT (List Char) (EStateM Stop Progress) α

/-- The bytes that follow. -/
def ahead : Scan (List Char) := fun source s =>
  .ok ((Text.bytes source).drop s.pos) s

/-- The index that is read next. -/
def here : Scan Nat := fun _ s =>
  .ok s.pos s

/-- The index behind the source. -/
def sourceEnd : Scan Nat := fun source s =>
  .ok (Text.bytes source).length s

/-- The next byte. -/
def peek? : Scan (Option Char) :=
  return (← ahead).head?

/-- Reading goes on `n` bytes further. -/
def advance (n : Nat) : Scan Unit := fun _ s =>
  .ok () { s with pos := s.pos + n }

/-- The next byte is passed if it is this one. -/
def eat (ch : Char) : Scan Bool := do
  if (← peek?) = some ch then
    advance 1
    return true
  else return false

/-- What some reader makes of the bytes that follow is passed. -/
def read? {α : Type} (reader : List Char → Option (α × Nat)) : Scan (Option α) := do
  match reader (← ahead) with
  | none => return none
  | some (a, n) =>
    advance n
    return some a

/-- The bytes that `p` holds of are passed. -/
def skipWhile (p : Char → Bool) : Scan Unit := do
  advance ((← ahead).takeWhile p).length

/-- The text between two indices. -/
def cut (start stop : Nat) : Scan (List Char) := fun source s =>
  match Text.between? source start stop with
  | some cs => .ok cs s
  | none => .error (.noText start stop) s

/-- The source is refused. -/
def refuse {α : Type} (cause : CompileCause) (span : Span) : Scan α := fun _ s =>
  .error (.refused ⟨cause, span⟩) s

/-- A remark is made. -/
def remark (n : Note) : Scan Unit := fun _ s =>
  .ok () { s with machine := s.machine.remark n }

/-- Whether there is a command of some name. -/
def commands : Scan Commands := fun _ s =>
  .ok s.machine.session.findCommand? s

/-- No call is left. -/
def giveUp {α : Type} : Scan α := fun _ s =>
  .error .spent s

/-- The index behind a complaint about the text that starts at `start` with a character. -/
def complaintEnd (start : Nat) (first : Char) : Scan Nat := fun source s =>
  let stop := start + first.utf8Size
  if first.isAlphanum || Ascii.isQuote first || first == '/' then
    .ok (stop + (((Text.bytes source).drop stop).takeWhile Char.isAlphanum).length) s
  else .ok stop s

/-- The source is refused because something else was expected. -/
def unexpected {α : Type} (what : Expected) : Scan α := do
  let start ← here
  match ← cut start (← sourceEnd) with
  | [] => refuse (.expected what none) ⟨start, start⟩
  | first :: _ =>
    let stop ← complaintEnd start first
    let found ← cut start stop
    refuse (.expected what (some (String.ofList found))) ⟨start, stop⟩

/-! ### Operands without expressions in them -/

/-- The number that starts here. -/
def number : Scan Expr := do
  let start ← here
  let text ← cut start (← sourceEnd)
  match Literal.parse (Text.bytes text) with
  | .ok (n, used) =>
    advance used
    return .leaf (.value (.ofNumber n)) ⟨start, ← here⟩
  | .error e => refuse (.number e) ⟨start, start + 1⟩

/-- The name that starts here; behind a slash it is remarked on. -/
def name (slash : Bool) : Scan Expr := do
  let start ← here
  skipWhile Ascii.isWord
  let x ← cut start (← here)
  if slash then remark (.afterSlash (String.ofList x))
  return .leaf (.value (.name (String.ofList x))) ⟨start, ← here⟩

/-- The quoted text that starts at `start` and goes on with these bytes, of which what stands
between `run` and here is still to be cut. -/
def quotedText (quote : Char) (start run : Nat) : List Char → Scan (List Char)
  | [] => do refuse (.unclosedQuote quote) ⟨start, ← here⟩
  | [u] => do
    if u = quote then
      let text ← cut run (← here)
      advance 1
      return text
    else
      advance 1
      refuse (.unclosedQuote quote) ⟨start, ← here⟩
  | u :: e :: rest => do
    if u = quote then
      let text ← cut run (← here)
      advance 1
      return text
    else if u = '\\' ∧ (e = quote ∨ e = '\\') then
      let text ← cut run (← here)
      advance 1
      let next ← here
      advance 1
      return text ++ (← quotedText quote start next rest)
    else
      if u = '\\' then remark (.needlessEscape quote e)
      advance 1
      quotedText quote start run (e :: rest)

/-- The quoted text that starts here with its opening `quote`. -/
def quoted (quote : Char) : Scan Expr := do
  let start ← here
  advance 1
  let text ← quotedText quote start (← here) (← ahead)
  return .leaf (.value (.text (String.ofList text))) ⟨start, ← here⟩

/-- The command line behind `$(`, which starts at `start`. -/
def output (start : Nat) : Scan Expr := do
  let first ← here
  match enclosedLength? 0 (← ahead) with
  | none => refuse .unclosedCommand ⟨start, ← sourceEnd⟩
  | some n =>
    advance n
    let line ← cut first (← here)
    advance 1
    return .leaf (.output (String.ofList line)) ⟨start, ← here⟩

/-- The macro name behind a dollar sign, which stands at `start`. -/
def body (start : Nat) : Scan Expr := do
  let bracketed ← eat '{'
  let first ← here
  skipWhile (isBodyName bracketed)
  let stop ← here
  let x ← cut first stop
  if bracketed then
    if ← eat '}' then return .leaf (.body (String.ofList x)) ⟨start, ← here⟩
    else refuse .unclosedName ⟨start, stop⟩
  else
    let _ ← eat '$'
    return .leaf (.body (String.ofList x)) ⟨start, ← here⟩

/-- The subject of a substitution that starts at `start`, with its name cut out if it has one. -/
def subject (start : Nat) (bracketed except : Bool) : Scan Subject := do
  let first ← here
  let (s, stray, n) := Grammar.subject bracketed except (← ahead)
  advance n
  let x ← cut first (← here)
  if stray then refuse .strayExcept ⟨start, ← here⟩
  else match s with
    | .variable _ => return .variable (String.ofList x)
    | .param s => return .param s

/-- The subject of a substitution that starts at `start`, up to a default or the end. -/
def selected (start : Nat) (bracketed : Bool) : Scan Subject := do
  match ← ahead, bracketed with
  | '#' :: '}' :: _, true | '#' :: _, false =>
    advance 1
    return .param .count
  | '?' :: '}' :: _, true | '?' :: _, false =>
    advance 1
    return .param .result
  | '-' :: _, _ =>
    advance 1
    subject start bracketed true
  | _, _ => subject start bracketed false

/-- The subject and the default behind it, if there is one. -/
def withDefault (start : Nat) (bracketed : Bool) (s : Subject) : Scan Expr := do
  let head ← here
  if ← eat '-' then
    let first ← here
    skipWhile fun ch => if bracketed then ch != '}' else !Ascii.isBlank ch
    let stop ← here
    let text ← cut first stop
    return .fallback s (String.ofList text) ⟨start, head⟩ ⟨start, first⟩ ⟨first, stop⟩
  else return .leaf s.leaf ⟨start, head⟩

/-- The substitution that starts here, in braces or without. -/
def substitution : Scan Expr := do
  let start ← here
  let bracketed ← eat '{'
  let s ← selected start bracketed
  let e ← withDefault start bracketed s
  if bracketed then
    if ← eat '}' then return e
    else
      let stop ← here
      let rest ← cut stop (← sourceEnd)
      refuse (.badSubstitution rest.head?) ⟨start, stop⟩
  else return e

/-- The substitution that starts here, behind a percent sign, which is remarked on. -/
def percentSubstitution : Scan Expr := do
  let start ← here
  let bracketed := (← peek?) == some '{'
  let e ← substitution
  let stop ← here
  let written ← cut start stop
  let inner ← if bracketed then cut (start + 1) (stop - 1) else cut start stop
  remark (.percent (String.ofList written) (String.ofList inner))
  return e

/-! ### Expressions -/

mutual

/-- Expressions joined by commas. -/
def sequence : Nat → Scan Expr
  | 0 => giveUp
  | n + 1 => do sequenceTail n (← assignment n)

/-- The commas that follow an expression. -/
def sequenceTail : Nat → Expr → Scan Expr
  | 0, _ => giveUp
  | n + 1, first => do
    let sign ← here
    if ← eat ',' then
      let stop ← here
      sequenceTail n (.sequence first (← assignment n) ⟨sign, stop⟩)
    else return first

/-- A conditional, or an assignment of what follows to it. -/
def assignment : Nat → Scan Expr
  | 0 => giveUp
  | n + 1 => do
    let left ← conditional n
    let sign ← here
    match ← read? assignment? with
    | none => return left
    | some op =>
      let stop ← here
      return .binary op left (← assignment n) ⟨sign, stop⟩

/-- A disjunction, or a choice that it decides. -/
def conditional : Nat → Scan Expr
  | 0 => giveUp
  | n + 1 => do
    let condition ← chain n .disjunction
    let sign ← here
    if ← eat '?' then
      let question := ⟨sign, ← here⟩
      skipWhile Ascii.isBlank
      if ← eat ':' then return .orElse condition (← conditional n) question
      else
        let yes ← sequence n
        let sign ← here
        if ← eat ':' then
          let colon := ⟨sign, ← here⟩
          return .choice condition yes (← conditional n) question colon
        else unexpected .elseBranch
    else return condition

/-- Operands of a level, joined from the left. -/
def chain : Nat → Level → Scan Expr
  | 0, _ => giveUp
  | n + 1, l => do chainTail n l (← operand n l false)

/-- The operators and operands of a level that follow an operand. -/
def chainTail : Nat → Level → Expr → Scan Expr
  | 0, _, _ => giveUp
  | n + 1, l, left => do
    let sign ← here
    match ← read? l.joiner? with
    | none => return left
    | some j =>
      let stop ← here
      chainTail n l (j.build left (← operand n l (j == .binary .div)) ⟨sign, stop⟩)

/-- An operand of a level, which may stand behind a slash. -/
def operand : Nat → Level → Bool → Scan Expr
  | 0, _, _ => giveUp
  | n + 1, l, slash =>
    match l.tighter? with
    | none => unary n slash
    | some m => chain n m

/-- A primary operand or a call, with operators in front. -/
def unary : Nat → Bool → Scan Expr
  | 0, _ => giveUp
  | n + 1, slash => do
    let before ← here
    skipWhile Ascii.isBlank
    let start ← here
    match ← read? unary? with
    | some op =>
      let stop ← here
      return .unary op (← unary n false) ⟨start, stop⟩
    | none =>
      let e ← primary n (slash && start == before)
      let sign ← here
      if (← peek?) = some '(' then
        match resolveCallee (← commands) e with
        | .error cause => refuse cause ⟨sign, sign⟩
        | .ok (callee, e) =>
          advance 1
          let args ← arguments n
          match callee.countError? args.length with
          | some cause => refuse cause ⟨sign, ← here⟩
          | none =>
            advance 1
            skipWhile Ascii.isBlank
            return .call e (.ofList args) ⟨sign, ← here⟩
      else return e

/-- The arguments behind an opening parenthesis, up to the closing one. -/
def arguments : Nat → Scan (List Expr)
  | 0 => giveUp
  | n + 1 => do
    skipWhile Ascii.isBlank
    if (← peek?) = some ')' then return [] else argumentTail n

/-- An argument and those that follow it. -/
def argumentTail : Nat → Scan (List Expr)
  | 0 => giveUp
  | n + 1 => do
    let arg ← assignment n
    if (← peek?) = some ')' then return [arg]
    else if ← eat ',' then return arg :: (← argumentTail n)
    else unexpected .argumentEnd

/-- A primary operand, and the blanks behind it. -/
def primary : Nat → Bool → Scan Expr
  | 0, _ => giveUp
  | n + 1, slash => do
    let e ← bare n slash
    skipWhile Ascii.isBlank
    return e

/-- A primary operand. -/
def bare : Nat → Bool → Scan Expr
  | 0, _ => giveUp
  | n + 1, slash => do
    if startsNumber (← ahead) then number
    else match ← peek? with
      | some '{' => substitution
      | some '%' =>
        advance 1
        percentSubstitution
      | some '$' =>
        let start ← here
        advance 1
        match ← peek? with
        | some '[' =>
          remark .bracketed
          advance 1
          skipWhile Ascii.isBlank
          let e ← sequence n
          if (← ahead).isEmpty then refuse .unclosedExpression ⟨start, ← here⟩
          else if ← eat ']' then return e
          else unexpected .closingBracket
        | some '(' =>
          advance 1
          output start
        | _ => body start
      | some '(' =>
        advance 1
        let e ← sequence n
        if ← eat ')' then return e else unexpected .closingParenthesis
      | some ch =>
        if Ascii.isQuote ch then quoted ch
        else if Ascii.isWordStart ch then name slash
        else unexpected .operand
      | none => unexpected .operand

end

/-- The expression that a source is. -/
def parse : Scan Expr := do
  let e ← sequence (32 * (← sourceEnd) + 24)
  if (← ahead).isEmpty then return e else unexpected .endOfExpression

/-- The program of a source, or why there is none, and the machine afterwards. -/
def compile (source : String) (m : Machine) : Option (Except CompileError Program × Machine) :=
  match parse source.toList { machine := m } with
  | .ok e s => some (.ok ⟨source, (e.code m.settings.optimize 0).toArray⟩, s.machine)
  | .error (.refused e) s => some (.error e, s.machine)
  | .error _ _ => none

end Bytewise

end ExprEngine
