import LoxLexer.Scan

/-!
# Output of the program

The program writes to two streams. A scan is written out as a listing of its tokens on the one and
as its diagnostics on the other.
-/

namespace LoxLexer

structure Output where
  stdout : String := ""
  stderr : String := ""
  deriving DecidableEq, Repr

namespace Output

def append (first second : Output) : Output :=
  { stdout := first.stdout ++ second.stdout, stderr := first.stderr ++ second.stderr }

instance : Append Output := ⟨append⟩

def lines (texts : List String) : String :=
  String.join (texts.map (· ++ "\n"))

end Output

/-- What is written for a scan. The lines written out while scanning come first, then follows every
diagnostic that the log holds. -/
def Scan.output (result : Scan) : Output :=
  { stdout := Output.lines (result.tokens.map Token.display)
    stderr := Output.lines result.traced
      ++ Output.lines (result.log.toList.map Diagnostic.display) }

end LoxLexer
