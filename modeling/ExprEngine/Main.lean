import ExprEngine.CommandLine.Run
import Std.Time.DateTime.Timestamp

/-!
# The program

The outer layer: it reads the clock, the files and the lines, and writes what the run says.
-/

namespace ExprEngine.Main

open CommandLine

/-- A system error with its number. -/
def describe (code : UInt32) (details : String) : String :=
  details ++ " (os error " ++ toString code ++ ")"

/-- Why a path that exists cannot be read. -/
def reason : IO.Error → String
  | .permissionDenied _ code details | .inappropriateType _ code details
  | .resourceExhausted _ code details => describe code details
  | .otherError code details | .hardwareFault code details => describe code details
  | _ => "stream did not contain valid UTF-8"

/-- What reading a path gives. -/
def readPath (path : String) : IO FileText := do
  try
    return .text (← IO.FS.readFile path)
  catch e =>
    match e with
    | .noFileOrDirectory .. => return .missing
    | e => return .unreadable (reason e)

/-- The number of this process, zero where the system does not tell. -/
def processId : IO Int64 := do
  match ← readPath "/proc/self/stat" with
  | .text s =>
    return Int64.ofNat ((Decimal.readNat? Settings.numberLimit (s.toList.takeWhile Char.isDigit)).getD 0)
  | _ => return 0

/-- Eight bytes as a number, the least significant first. -/
def numberOfBytes (bytes : ByteArray) : UInt64 :=
  bytes.toList.foldr (fun b n => 256 * n + b.toUInt64) 0

/-- The system as it is now. -/
def currentHost : IO Host := do
  let now ← Std.Time.Timestamp.now
  let micros := now.toNanosecondsSinceUnixEpoch.val / 1000
  return {
    clock := ⟨Int64.ofInt (micros / 1000000), Int64.ofInt (micros % 1000000)⟩
    processId := ← processId
    terminal := ← (← IO.getStdin).isTty
    entropy := numberOfBytes (← IO.getRandomBytes 8) }

/-- All that a run says goes to its stream. -/
def write (ws : List Written) : IO Unit := do
  for w in ws do
    match w with
    | .output text => IO.print text
    | .error text => IO.eprint text
  (← IO.getStdout).flush

/-- The expressions of the options; whether all succeeded. -/
def runAll (listing : Bool) : List String → Machine → IO Bool
  | [], _ => return true
  | e :: more, m => do
    let reply := runLine listing e { m with host := ← currentHost }
    write reply.written
    return (← runAll listing more reply.machine) && reply.succeeded

/-- The lines of standard input. -/
partial def readAll (listing : Bool) (m : Machine) : IO Unit := do
  if m.host.terminal then
    IO.print "expr> "
    (← IO.getStdout).flush
  let line ← (← IO.getStdin).getLine
  if line.isEmpty then return
  match InputLine.ofText line with
  | .skipped => readAll listing m
  | .quit => return
  | .line text =>
    let reply := runLine listing text { m with host := ← currentHost }
    write reply.written
    readAll listing reply.machine

end ExprEngine.Main

section

open ExprEngine ExprEngine.CommandLine

/-- Runs the expressions of the command line, or the lines of standard input. -/
def main (args : List String) : IO UInt32 := do
  match Options.ofArguments args with
  | .error e =>
    Main.write (refusal e)
    return 1
  | .ok o =>
    let home ← IO.getEnv "HOME"
    let files ← (o.candidates home).mapM fun path => do return (path, ← Main.readPath path)
    let (startup, complaints) := o.readStartup home fun path => (files.lookup path).getD .missing
    Main.write complaints
    let m := machineOf (o.override startup) (← Main.currentHost)
    if o.expressions.isEmpty then
      Main.readAll o.listing m
      return 0
    else
      return if ← Main.runAll o.listing o.expressions m then 0 else 1

end
