import LoxLexer.Proofs.Element.Lines
import LoxLexer.Proofs.Program.Lines
import LoxLexer.Proofs.Scan.Elements

/-!
# Scripts and interactive input agree

A text that stands in a script is scanned in one go, and the same text on the standard input line by
line, each line trimmed and with an empty log. What is written is the same in both cases, but for
the prompts, the ends of the listings and the numbers of the lines (`script_agrees_with_lines`).
-/

namespace LoxLexer

open Element Interactive

/-! ## 1. The output of one scan -/

/-- The listing of the tokens of a text, but for the line that closes it. -/
def dump (cs : List Char) : String :=
  Output.lines ((collect token? [] (ofChars cs)).map Token.display)

theorem output_stdout (options : Options) (text : String) (log : Log) :
    (scan options text log).output.stdout = dump text.toList ++ "EOF  null\n" := by
  rw [Scan.output, scan_tokens, tokens_eq_collect, List.map_append, Output.lines_append]
  rfl

theorem output_stderr (text : String) :
    (scan {} text .empty).output.stderr = Diagnostic.displayAll (reports text.toList) := by
  rw [Scan.output, scan_traced, scan_log_empty, Diagnostic.displayAll_eq]
  exact String.empty_append

/-! ## 2. Trimmed lines -/

theorem eq_newline_or_return_of_isLineEnd (c : Char) (h : isLineEnd c = true) :
    c = '\n' ∨ c = '\r' := by
  simpa [isLineEnd] using h

theorem toList_trimLineEnd (line : List Char) :
    (trimLineEnd (String.ofList line)).toList = line.rdropWhile isLineEnd := by
  rw [trimLineEnd, String.toList_ofList, String.toList_ofList]
  rfl

-- The ends that are trimmed off a line do not change what is written for it.
theorem reply_eq (line : List Char) :
    reply {} line =
      { stdout := dump line ++ "EOF  null\n", stderr := Diagnostic.displayAll (reports line) } := by
  have hstdout : (reply {} line).stdout = dump line ++ "EOF  null\n" := by
    rw [reply, output_stdout, toList_trimLineEnd, dump,
      collect_trim skips_token? isLineEnd eq_newline_or_return_of_isLineEnd, ← dump]
  have hstderr : (reply {} line).stderr = Diagnostic.displayAll (reports line) := by
    rw [reply, output_stderr, toList_trimLineEnd, reports,
      collect_trim skips_diagnostic? isLineEnd eq_newline_or_return_of_isLineEnd, ← reports]
  rw [← hstdout, ← hstderr]

/-! ## 3. All lines -/

-- The listing of a text is made of those of its lines.
theorem join_map_dump (cs : List Char) : String.join ((Line.all cs).map dump) = dump cs := by
  induction cs using Line.induction_later with
  | nil =>
    rw [Line.all_nil, dump, ofChars_nil]
    rfl
  | cons cs hcs ih =>
    have hlater : dump cs = dump (Line.first cs) ++ dump (Line.later cs) := by
      rw [dump, collect_ofChars token?_append, List.map_append, List.map_map, Output.lines_append]
      rfl
    rw [Line.all_of_ne_nil hcs, List.map_cons, String.join_cons, ih, hlater]

theorem stderr_replies (lines : List (List Char)) :
    (replies {} lines).stderr = Diagnostic.displayAll (lines.flatMap reports) := by
  induction lines with
  | nil => rfl
  | cons line rest ih =>
    rw [replies, Output.stderr_append, Output.stderr_append, reply_eq, ih, List.flatMap_cons,
      Diagnostic.displayAll_append]
    exact congrArg (· ++ _) String.empty_append

/-! ## 4. Scripts -/

-- A script that is text is scanned, whatever it holds.
theorem script_toByteArray (options : Options) (path text : String) :
    Program.script options path (some text.toByteArray) =
      { status := if (scan options text .empty).log.hadError then 65 else 0
        output := (scan options text .empty).output } := by
  rw [Program.script]
  dsimp only
  rw [fromUTF8?_toByteArray]
  dsimp only
  split
  · rw [Outcome.failed, Failure.output, Output.append_empty]
    rfl
  · rfl

/-- **Agreement.** Let a file hold a text. (1) Its lines on the standard input are answered one by
one. (2) Their listings, each without its last line, make up the listing of the script but for its
last line. (3) Every diagnostic of the script is on one of the lines, and the diagnostics of a line
on the standard input are those that the script has on the line with its number. (4) All together
they are the same in order, but for the numbers. -/
theorem script_agrees_with_lines (text path : String) (read? read?' : Reader) (input : ByteArray)
    (hread : read? path = some text.toByteArray) :
    Program.run {} [] read?' text.toByteArray = .success (replies {} (Line.all text.toList))
      ∧ (∃ dumps : List String,
          (Line.all text.toList).map (fun line => (reply {} line).stdout) =
              dumps.map (· ++ "EOF  null\n")
            ∧ (Program.run {} [path] read? input).output.stdout =
              String.join dumps ++ "EOF  null\n")
      ∧ ((Program.run {} [path] read? input).output.stderr =
            Diagnostic.displayAll (scan {} text .empty).log.toList
          ∧ (∀ d ∈ (scan {} text .empty).log.toList,
              1 ≤ d.line ∧ d.line ≤ (Line.all text.toList).length)
          ∧ ∀ k line, (Line.all text.toList)[k]? = some line →
              (reply {} line).stderr = Diagnostic.displayAll
                (((scan {} text .empty).log.toList.filter (·.line = k + 1)).map
                  Diagnostic.toFirstLine))
      ∧ (replies {} (Line.all text.toList)).stderr =
          Diagnostic.displayAll ((scan {} text .empty).log.toList.map Diagnostic.toFirstLine) := by
  have houtput : (Program.run {} [path] read? input).output = (scan {} text .empty).output := by
    rw [Program.run, hread, script_toByteArray]
  rw [houtput, scan_log_empty]
  refine ⟨run_toByteArray {} text, ⟨(Line.all text.toList).map dump, ?_, ?_⟩, ⟨?_, ?_, ?_⟩, ?_⟩
  · rw [List.map_map]
    apply List.map_congr_left
    intro line _
    rw [reply_eq]
    rfl
  · rw [output_stdout, join_map_dump]
  · rw [output_stderr]
  · intro d hd
    exact line_of_mem_reports hd
  · intro k line hline
    rw [reply_eq, filter_reports hline]
  · rw [stderr_replies, map_toFirstLine_reports]

-- The character that is out of place on the second line of this script is out of place on the first
-- line when the second is typed in alone.
theorem script_agrees_with_lines_second :
    (Directory.ofEntries [] [("a", "(\n@".toByteArray)]).read? "a" = some "(\n@".toByteArray
      ∧ (Program.run {} ["a"]
          (Directory.ofEntries [] [("a", "(\n@".toByteArray)]).read? .empty).output.stderr =
        "[line 2] Error: Unexpected character: @\n"
      ∧ (reply {} ['@']).stderr = "[line 1] Error: Unexpected character: @\n" := by
  have hread : (Directory.ofEntries [] [("a", "(\n@".toByteArray)]).read? "a" =
      some "(\n@".toByteArray := by decide +kernel
  have hline : (Line.all "(\n@".toList)[1]? = some ['@'] := by decide +kernel
  obtain ⟨-, -, ⟨hscript, -, hreplies⟩, -⟩ :=
    script_agrees_with_lines "(\n@" "a" (Directory.ofEntries [] [("a", "(\n@".toByteArray)]).read?
      Directory.bare.read? .empty hread
  refine ⟨hread, ?_, ?_⟩
  · rw [hscript]
    decide +kernel
  · rw [hreplies 1 ['@'] hline]
    decide +kernel

end LoxLexer
