import ExprEngine.Program.Instruction
import ExprEngine.Text.Position
import ExprEngine.Text.Quoted

/-!
# Listings

A program as text: each line holds an index, an operation and the source text behind it.
-/

namespace ExprEngine

/-- The text filled up with blanks at its end. -/
def padRight (width : Nat) (s : String) : String :=
  s ++ String.ofList (List.replicate (width - s.length) ' ')

/-- The text filled up with blanks at its front. -/
def padLeft (width : Nat) (s : String) : String :=
  String.ofList (List.replicate (width - s.length) ' ') ++ s

/-- A mnemonic in its column, with what it applies to. -/
def mnemonic (word operand : String) : String :=
  padRight 8 word ++ operand

/-- How a constant is listed. -/
def Value.listing (v : Value) : String :=
  match v.payload with
  | .text s => Text.quoted s
  | .name x => "id:" ++ x
  | .function b => "func:" ++ b.name
  | .command c => "cmd:" ++ c.name
  | p => v.display ++ " (" ++ p.typeName ++ ")"

/-- The mnemonic of a jump. -/
def JumpKind.word : JumpKind → String
  | .always => "JUMP"
  | .ifFalse => "JZ"
  | .ifTrue => "JNZ"
  | .ifNonEmpty => "JNEMPTY"

/-- How an operation is listed, given how targets are. -/
def Op.listing {τ : Type} (target : τ → String) : Op τ → String
  | .push v => mnemonic "PUSH" v.listing
  | .pop n => mnemonic "POP" (toString n)
  | .dup => "DUP"
  | .jump kind t => mnemonic kind.word (target t)
  | .pushVariable x => mnemonic "PVAR" x
  | .pushParam s => mnemonic "PPARM" ("\x7b" ++ s.text ++ "\x7d")
  | .pushBody name => mnemonic "PMAC" name
  | .pushOutput line => mnemonic "PCMDSUB" (Text.quoted line)
  | .call n => mnemonic "CALL" (toString n)
  | .reduce op n => mnemonic op.symbol (toString n)

/-- How a target that may be open is listed: an open one as the greatest index there is. -/
def openTarget (t : Option Nat) : String :=
  toString (t.getD 0xffffffffffffffff)

/-- The line of an instruction of a program with this source. -/
def Instr.listing (source : String) (index : Nat) (i : Instr Nat) : String :=
  padLeft 4 (toString index) ++ ": " ++ padRight 28 (i.op.listing toString) ++ " ; " ++
    String.ofList ((Text.between? source.toList i.span.start i.span.stop).getD [])

/-- The lines of a program. -/
def Program.lines (p : Program) : List String :=
  p.code.toList.mapIdx fun n i => i.listing p.source n

/-- The listing of a program, each line with a line feed. -/
def Program.listing (p : Program) : String :=
  String.join (p.lines.map (· ++ "\n"))

end ExprEngine
