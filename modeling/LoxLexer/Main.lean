import LoxLexer.Program

/-!
# The command line

Reads files and the standard input, and writes what the program's definitions say.
-/

namespace LoxLexer

def Output.write (output : Output) : IO Unit := do
  let stderr ← IO.getStderr
  let stdout ← IO.getStdout
  stderr.putStr output.stderr
  stdout.putStr output.stdout
  stdout.flush

def Outcome.conclude (outcome : Outcome) : IO UInt32 := do
  outcome.output.write
  return outcome.status.toUInt32

namespace Interactive

/-- Reads on up to and including the next line feed, or to the end of the stream. -/
partial def readLine (stream : IO.FS.Stream) (line : ByteArray) : IO ByteArray := do
  let byte ← stream.read 1
  let line := line ++ byte
  if byte.isEmpty || byte.data.contains lineFeed then return line
  readLine stream line

partial def interact (options : Options) (log : Log) : IO UInt32 := do
  prompt.write
  let line ← readLine (← IO.getStdin) .empty
  if line.isEmpty then return 0
  match answer options log line.data.toList with
  | .error failure => (Outcome.failed {} failure).conclude
  | .ok (output, log) =>
    output.write
    interact options log

end Interactive

def readFile? (path : String) : IO (Option ByteArray) := do
  try
    return some (← IO.FS.readBinFile path)
  catch _ =>
    return none

end LoxLexer

open LoxLexer in
def main (arguments : List String) : IO UInt32 := do
  match arguments with
  | [] => Interactive.interact {} .empty
  | [path] => (Program.script {} path (← readFile? path)).conclude
  | _ => (Outcome.failed {} .usage).conclude
