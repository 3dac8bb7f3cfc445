import LoxLexer.Proofs.Program.Conversation
import LoxLexer.Proofs.Program.Script
import LoxLexer.Proofs.Scan.Append

/-!
# Runs with a trace

A run that traces its tokens writes the same listings and ends in the same way as one that does not.
Beside the listings it writes the trace of each scanned text right before the diagnostics of this
text, and nothing else that is new (`run_trace`). This is true of one scan (`output_scan`), from
there of lines that are answered one after another (`transcript_eq`), and so of every run.
-/

namespace LoxLexer

open Element

/-! ## 1. Lines of a trace -/

/-- A word in upper case, with all letters but the first turned into lower case. -/
def capitalized : List Char → List Char
  | [] => []
  | first :: rest => first :: rest.map Char.toLower

/-- A name whose words are in upper case and apart, with every word capitalised and none apart. -/
def camelCase (name : String) : String :=
  String.ofList ((name.toList.splitOn '_').flatMap capitalized)

/-- The line of a trace for a token, without the newline that ends it. -/
def traceLine (t : Token) : String :=
  "Token \x7b kind: " ++ camelCase t.kind.name ++ ", lexeme: \"" ++ t.lexeme
    ++ "\", literal: None, line: " ++ Nat.repr t.line ++ " \x7d"

theorem Token.Kind.camelName_eq (k : Token.Kind) : k.camelName = camelCase k.name := by
  cases k with
  | punctuator p => cases p <;> decide +kernel
  | eof => decide +kernel

theorem Token.trace_eq (t : Token) : t.trace = traceLine t := by
  have hliteral : ∀ first, first ++ "\", literal: " ++ "None" ++ ", line: " =
      first ++ "\", literal: None, line: " := by
    intro first
    rw [String.append_assoc, String.append_assoc]
    exact congrArg (first ++ ·) (by decide)
  unfold trace traceLine
  rw [Kind.camelName_eq, traceLiteral_eq, hliteral]

/-! ## 2. One scan -/

/-- The trace of the tokens found in a text, one line for each but the end of the text. -/
def traceLines (text : String) : String :=
  String.join ((findings {} text).body.map fun t => traceLine t ++ "\n")

theorem traceLines_eq (text : String) :
    traceLines text = Output.lines ((findings {} text).body.map Token.trace) := by
  rw [traceLines, Output.lines, List.map_map, funext Token.trace_eq]
  rfl

def diagnosticLines (text : String) : String :=
  Diagnostic.displayAll (findings {} text).diagnostics

theorem diagnosticLines_eq (text : String) :
    diagnosticLines text = Output.lines ((findings {} text).diagnostics.map Diagnostic.display) :=
  Diagnostic.displayAll_eq _

/-- What is written beside the listing of a text. -/
def remarks (options : Options) (text : String) : String :=
  (if options.trace then traceLines text else "") ++ diagnosticLines text

theorem traced_eq (options : Options) (text : String) :
    Output.lines (scan options text .empty).traced =
      if options.trace then traceLines text else "" := by
  rw [scan_traced, scan_tokens, tokens_eq_collect, List.dropLast_concat, ← findings_body {},
    traceLines_eq]
  split <;> rfl

/-- **One scan.** The listing is the same with and without a trace. -/
theorem output_scan (options : Options) (text : String) :
    (scan options text .empty).output =
      { stdout := (scan {} text .empty).output.stdout, stderr := remarks options text } := by
  have hstdout : (scan options text .empty).output.stdout =
      (scan {} text .empty).output.stdout := by
    rw [output_stdout, output_stdout]
  have hstderr : (scan options text .empty).output.stderr = remarks options text := by
    rw [Scan.output, traced_eq, scan_log_empty, ← findings_diagnostics {}, ← diagnosticLines_eq]
    rfl
  rw [← hstdout, ← hstderr]

example : (scan { trace := true } "!=//=\n@" .empty).output.stderr =
    "Token \x7b kind: BangEqual, lexeme: \"!=\", literal: None, line: 1 \x7d\n"
      ++ "[line 2] Error: Unexpected character: @\n" := by
  decide +kernel

/-! ## 3. Lines, one after another -/

namespace Interactive

/-- The texts that are scanned when lines are answered: those of the lines before the first line that
is no text, without their ends. -/
def scannedLines (lines : List (List UInt8)) : List String :=
  (lines.takeWhile fun line => IsText line).filterMap fun line =>
    (String.fromUTF8? line.toByteArray).map trimLineEnd

/-- The message about the first line that is no text. -/
def complaint (lines : List (List UInt8)) : String :=
  if ∀ line ∈ lines, IsText line then "" else "I/O error: stream did not contain valid UTF-8\n"

variable {line : List UInt8}

-- A line of text is scanned, and the lines after it are answered as if they came first.
theorem transcript_bytes (options : Options) (cs : List Char) (rest : List (List UInt8)) :
    transcript options (bytes cs :: rest) =
      (transcript options rest).after (prompt ++ reply options cs) := by
  rw [transcript, answer_bytes]

theorem scannedLines_bytes (cs : List Char) (rest : List (List UInt8)) :
    scannedLines (bytes cs :: rest) = trimLineEnd (String.ofList cs) :: scannedLines rest := by
  have htext : IsText (bytes cs) := isText_iff.mpr ⟨cs, rfl⟩
  have hdecode : String.fromUTF8? (bytes cs).toByteArray = some (String.ofList cs) := by
    rw [toByteArray_bytes, fromUTF8?_toByteArray]
  rw [scannedLines, List.takeWhile_cons_of_pos (by simpa using htext), List.filterMap_cons,
    hdecode]
  rfl

theorem complaint_bytes (cs : List Char) (rest : List (List UInt8)) :
    complaint (bytes cs :: rest) = complaint rest := by
  have htext : IsText (bytes cs) := isText_iff.mpr ⟨cs, rfl⟩
  simp only [complaint, List.forall_mem_cons, htext, true_and]

-- A line that is no text ends the run, and neither it nor a line after it is scanned.
theorem transcript_of_not_isText (options : Options) (h : ¬ IsText line)
    (rest : List (List UInt8)) :
    transcript options (line :: rest) = .failed prompt (.io Failure.notText) := by
  rw [transcript, answer_of_not_isText options .empty h]

theorem scannedLines_of_not_isText (h : ¬ IsText line) (rest : List (List UInt8)) :
    scannedLines (line :: rest) = [] := by
  rw [scannedLines, List.takeWhile_cons_of_neg (by simpa using h), List.filterMap_nil]

theorem complaint_of_not_isText (h : ¬ IsText line) (rest : List (List UInt8)) :
    complaint (line :: rest) = "I/O error: stream did not contain valid UTF-8\n" := by
  rw [complaint, if_neg]
  exact fun hall => h (hall line List.mem_cons_self)

/-- **Lines, one after another.** With every way to carry out scans, the same lines are answered by
the same listings and the run ends in the same way. -/
theorem transcript_eq (options : Options) (lines : List (List UInt8)) :
    transcript options lines =
      { status := (transcript {} lines).status
        output :=
          { stdout := (transcript {} lines).output.stdout
            stderr :=
              String.join ((scannedLines lines).map (remarks options)) ++ complaint lines } } := by
  induction lines with
  | nil => rfl
  | cons line rest ih =>
    by_cases htext : IsText line
    · obtain ⟨cs, rfl⟩ := isText_iff.mp htext
      have hreply : reply options cs =
          { stdout := (reply {} cs).stdout
            stderr := remarks options (trimLineEnd (String.ofList cs)) } :=
        output_scan options _
      -- The prompt is on the one stream only.
      have hstderr : ∀ first later : String, prompt.stderr ++ first ++ (later ++ complaint rest) =
          first ++ later ++ complaint rest := by
        intro first later
        rw [show prompt.stderr = "" from rfl, String.empty_append, String.append_assoc]
      rw [transcript_bytes, transcript_bytes, ih, hreply, scannedLines_bytes, complaint_bytes,
        List.map_cons, String.join_cons, ← hstderr]
      rfl
    · rw [transcript_of_not_isText options htext, transcript_of_not_isText {} htext,
        scannedLines_of_not_isText htext, complaint_of_not_isText htext, failed_notText]
      rfl

end Interactive

/-! ## 4. Scripts -/

-- The bytes that a text is read from are those of the text.
theorem eq_toByteArray_of_fromUTF8? {bytes : ByteArray} {text : String}
    (h : String.fromUTF8? bytes = some text) : bytes = text.toByteArray := by
  unfold String.fromUTF8? at h
  split at h
  · cases h
    rfl
  · cases h

theorem log_scan (options : Options) (text : String) (log : Log) :
    (scan options text log).log = (scan {} text log).log := by
  apply Log.toList_inj
  rw [scan_log, scan_log]

namespace Program

variable {path text : String} {contents? : Option ByteArray}

/-- The text of a script, if it can be read and is text. -/
def text? (contents? : Option ByteArray) : Option String :=
  contents?.bind String.fromUTF8?

theorem script_of_text?_eq_none (options : Options) (h : text? contents? = none) :
    script options path contents? =
      { status := 74
        output :=
          { stdout := "", stderr := "Could not read file \"" ++ path ++ "\".\n" } } := by
  apply script_of_not_text
  intro bytes hbytes hvalid
  rw [text?, hbytes, Option.bind_some, String.fromUTF8?, dif_pos hvalid] at h
  cases h

theorem script_of_text?_eq_some (options : Options)
    (h : text? contents? = some text) :
    script options path contents? =
      { status := if (scan {} text .empty).log.hadError then 65 else 0
        output := (scan options text .empty).output } := by
  obtain ⟨bytes, hbytes, hdecode⟩ := Option.bind_eq_some_iff.mp h
  rw [hbytes, eq_toByteArray_of_fromUTF8? hdecode, script_toByteArray, log_scan]

/-- **Scripts.** With every way to carry out scans, the listing is the same and the run ends in the
same way. -/
theorem script_eq (options : Options) (path : String) (contents? : Option ByteArray) :
    script options path contents? =
      { status := (script {} path contents?).status
        output :=
          { stdout := (script {} path contents?).output.stdout
            stderr := String.join ((text? contents?).toList.map (remarks options))
              ++ if (text? contents?).isSome then ""
                else "Could not read file \"" ++ path ++ "\".\n" } } := by
  cases htext : text? contents? with
  | none =>
    rw [script_of_text?_eq_none options htext, script_of_text?_eq_none {} htext]
    exact congrArg (fun stderr => Outcome.mk 74 ⟨"", stderr⟩) String.empty_append.symm
  | some text =>
    have hstderr : remarks options text = String.join ([text].map (remarks options)) ++ "" := by
      rw [List.map_singleton, String.join_cons, String.join_nil, String.append_empty,
        String.append_empty]
    rw [script_of_text?_eq_some options htext, script_of_text?_eq_some {} htext, output_scan,
      hstderr]
    rfl

/-! ## 5. Runs -/

/-- The texts that a run scans, in their order. -/
def scanned (arguments : List String) (read? : Reader) (input : ByteArray) : List String :=
  match arguments with
  | [] => Interactive.scannedLines (Interactive.inputLines input.data.toList)
  | [path] => (text? (read? path)).toList
  | _ => []

/-- The message that a run closes with, if there is one. -/
def closing (arguments : List String) (read? : Reader) (input : ByteArray) : String :=
  match arguments with
  | [] => if input.IsValidUTF8 then "" else "I/O error: stream did not contain valid UTF-8\n"
  | [path] =>
    if (text? (read? path)).isSome then "" else "Could not read file \"" ++ path ++ "\".\n"
  | _ => "Usage: loxscan [script]\n"

theorem complaint_inputLines (input : ByteArray) :
    Interactive.complaint (Interactive.inputLines input.data.toList) =
      if input.IsValidUTF8 then "" else "I/O error: stream did not contain valid UTF-8\n" := by
  simp only [Interactive.complaint, ← Interactive.isText_iff_lines, Interactive.isText_toList]

/-- **Runs.** The way to carry out scans decides about the remarks on each text, and about nothing
else. -/
theorem run_eq (options : Options) (arguments : List String) (read? : Reader)
    (input : ByteArray) :
    run options arguments read? input =
      { status := (run {} arguments read? input).status
        output :=
          { stdout := (run {} arguments read? input).output.stdout
            stderr := String.join ((scanned arguments read? input).map (remarks options))
              ++ closing arguments read? input } } := by
  match arguments with
  | [] =>
    rw [run, run, Interactive.run_eq_transcript, Interactive.run_eq_transcript, scanned, closing,
      ← complaint_inputLines]
    exact Interactive.transcript_eq options _
  | [path] => exact script_eq options path (read? path)
  | _ :: _ :: _ => exact failed_usage

/-- **Tracing.** A run that traces writes the same listings and has the same status as one that does
not. Beside the listings, both write the diagnostics of every text that is scanned, in order, and
close with the same message; the one that traces writes the trace of each text right before its
diagnostics. -/
theorem run_trace (arguments : List String) (read? : Reader) (input : ByteArray) :
    (run { trace := true } arguments read? input).status = (run {} arguments read? input).status
      ∧ (run { trace := true } arguments read? input).output.stdout =
        (run {} arguments read? input).output.stdout
      ∧ (run {} arguments read? input).output.stderr =
        String.join ((scanned arguments read? input).map diagnosticLines)
          ++ closing arguments read? input
      ∧ (run { trace := true } arguments read? input).output.stderr =
        String.join ((scanned arguments read? input).map fun text =>
            traceLines text ++ diagnosticLines text)
          ++ closing arguments read? input := by
  have hremarks : remarks {} = diagnosticLines := funext fun _ => String.empty_append
  refine ⟨?_, ?_, ?_, ?_⟩
  · rw [run_eq]
  · rw [run_eq]
  · conv_lhs => rw [run_eq, hremarks]
  · rw [run_eq]
    rfl

end Program

end LoxLexer
