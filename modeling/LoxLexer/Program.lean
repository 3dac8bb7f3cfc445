import LoxLexer.Directory
import LoxLexer.Program.Interactive

/-!
# The program

The arguments decide what the program does: without any it is interactive, one names a script to
be scanned, and more are refused.
-/

namespace LoxLexer.Program

/-- Scans a script. `contents?` holds the bytes found at `path`, if any can be read there. -/
def script (options : Options) (path : String) (contents? : Option ByteArray) : Outcome :=
  match contents? with
  | none => .failed {} (.unreadable path "no file can be read there")
  | some bytes =>
    match String.fromUTF8? bytes with
    | none => .failed {} (.unreadable path Failure.notText)
    | some text =>
      let result := scan options text .empty
      if result.log.hadError then .failed result.output (.scan result.log.count)
      else .success result.output

def run (options : Options) (arguments : List String) (read? : Reader) (input : ByteArray) :
    Outcome :=
  match arguments with
  | [] => Interactive.run options input
  | [path] => script options path (read? path)
  | _ => .failed {} .usage

end LoxLexer.Program
