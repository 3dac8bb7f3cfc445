import LoxLexer.Program.Failure

/-!
# The interactive program

Without arguments the program reads its input line by line. Before each line it writes a prompt,
and after it what comes of scanning the line. The log is cleared after each line, so that one bad
line does not spoil the next.
-/

namespace LoxLexer.Interactive

def prompt : Output := { stdout := "> " }

def lineFeed : UInt8 := 10

/-- Cuts the first line off the input. The line keeps its line feed; the last line may lack one. -/
def cutLine (input : List UInt8) : List UInt8 × List UInt8 :=
  let rest := input.dropWhile (· != lineFeed)
  (input.takeWhile (· != lineFeed) ++ rest.take 1, rest.drop 1)

def isLineEnd (c : Char) : Bool :=
  c == '\n' || c == '\r'

/-- A line without the line ends after it, however many there are. -/
def trimLineEnd (line : String) : String :=
  String.ofList (line.toList.reverse.dropWhile isLineEnd).reverse

/-- What is written for a line of input, and the log for the line after it. A line that is no text
is neither scanned nor reported. -/
def answer (options : Options) (log : Log) (line : List UInt8) : Except Failure (Output × Log) :=
  match String.fromUTF8? line.toByteArray with
  | none => .error (.io Failure.notText)
  | some text =>
    let result := scan options (trimLineEnd text) log
    .ok (result.output, result.log.clear)

theorem length_cutLine_lt {input : List UInt8} (h : input ≠ []) :
    (cutLine input).2.length < input.length := by
  have hpos : 0 < input.length := List.length_pos_iff.mpr h
  have hle : (input.dropWhile (· != lineFeed)).length ≤ input.length :=
    (List.dropWhile_sublist _).length_le
  simp only [cutLine, List.length_drop]
  omega

/-- Answers lines until the input ends or a line is no text. `written` was written before. -/
def converse (options : Options) (log : Log) (written : Output) (input : List UInt8) : Outcome :=
  if _ : input = [] then .success (written ++ prompt)
  else
    match answer options log (cutLine input).1 with
    | .error failure => .failed (written ++ prompt) failure
    | .ok (output, log) => converse options log (written ++ prompt ++ output) (cutLine input).2
termination_by input.length
decreasing_by exact length_cutLine_lt ‹_›

def run (options : Options) (input : ByteArray) : Outcome :=
  converse options .empty {} input.data.toList

end LoxLexer.Interactive
