import LoxLexer.Proofs.Program.Input
import LoxLexer.Proofs.Scan.Elements

/-!
# Conversations that go on or break off

A run of the interactive program on input that goes on is the run on the first part followed by the
run on the second, if a line ends between them: nothing of the first part is kept in mind
(`run_append`). A run succeeds exactly if its input is text, and it breaks off at the first line
that is not (`run_interactive`).
-/

namespace LoxLexer.Interactive

variable {line input : List UInt8} {lines : List (List UInt8)}

/-! ## 1. Answers to lines of text -/

theorem answer_of_not_isText (options : Options) (log : Log) (h : ¬ IsText line) :
    answer options log line = .error (.io Failure.notText) := by
  have hnone : String.fromUTF8? line.toByteArray = none := dif_neg h
  rw [answer, hnone]

/-- **Lines of text.** What is written for them does not depend on the lines after them, and those are
answered as if they came first. -/
theorem exists_transcript_append (options : Options) (h : ∀ line ∈ lines, IsText line) :
    ∃ written, ∀ rest, transcript options (lines ++ rest) =
      (transcript options rest).after written := by
  induction lines with
  | nil =>
    refine ⟨{}, fun rest => ?_⟩
    rw [List.nil_append, Outcome.after, Output.empty_append]
  | cons line lines ih =>
    obtain ⟨cs, rfl⟩ := isText_iff.mp (h line List.mem_cons_self)
    obtain ⟨written, hwritten⟩ := ih fun l hl => h l (List.mem_cons_of_mem _ hl)
    refine ⟨prompt ++ reply options cs ++ written, fun rest => ?_⟩
    rw [List.cons_append, transcript, answer_bytes]
    show (transcript options (lines ++ rest)).after (prompt ++ reply options cs) = _
    rw [hwritten, Outcome.after_after]

-- What is written for lines of text when nothing comes after them is the same, and the last prompt.
theorem exists_transcript_eq_success (options : Options) (h : ∀ line ∈ lines, IsText line) :
    ∃ written, transcript options lines = .success (written ++ prompt)
      ∧ ∀ rest, transcript options (lines ++ rest) = (transcript options rest).after written := by
  obtain ⟨written, hwritten⟩ := exists_transcript_append options h
  refine ⟨written, ?_, hwritten⟩
  have hnil := hwritten []
  rwa [List.append_nil, transcript, Outcome.after_success] at hnil

/-! ## 2. Conversations that go on -/

/-- **No memory.** If some input is text and ends a line, a run on it and more input `c` writes what
it writes for the first part, without the last prompt, and then what it writes for `c` alone, and
ends as it does on `c` alone. -/
theorem run_append (options : Options) (read? : Reader) (b c : ByteArray)
    (htext : b.IsValidUTF8) (hend : EndsLine b.data.toList) :
    ∃ before, (Program.run options [] read? b).output.stdout = before ++ "> "
      ∧ Program.run options [] read? (b ++ c) =
        { status := (Program.run options [] read? c).status
          output :=
            { stdout := before ++ (Program.run options [] read? c).output.stdout
              stderr := (Program.run options [] read? b).output.stderr
                ++ (Program.run options [] read? c).output.stderr } } := by
  have hlines := (isText_iff_lines b.data.toList).mp ((isText_toList b).mpr htext)
  obtain ⟨written, hfirst, hrest⟩ := exists_transcript_eq_success options hlines
  have hb : Program.run options [] read? b = .success (written ++ prompt) := by
    rw [Program.run, run_eq_transcript, hfirst]
  have hbc : Program.run options [] read? (b ++ c) =
      (Program.run options [] read? c).after written := by
    rw [Program.run, Program.run, run_eq_transcript, run_eq_transcript, ByteArray.data_append,
      Array.toList_append, inputLines_append hend, hrest]
  -- The prompt is on the one stream only.
  have hstderr : (written ++ prompt).stderr = written.stderr := String.append_empty
  refine ⟨written.stdout, ?_, ?_⟩
  · rw [hb]
    rfl
  · rw [hbc, hb, Outcome.success, hstderr]
    rfl

-- The second line holds a character that is out of place, and the third is no text.
theorem run_append_broken :
    "(\n@\n".toByteArray.IsValidUTF8 ∧ EndsLine "(\n@\n".toByteArray.data.toList
      ∧ ∃ before,
        (Program.run {} [] Directory.bare.read? "(\n@\n".toByteArray).output.stdout = before ++ "> "
        ∧ Program.run {} [] Directory.bare.read? ("(\n@\n".toByteArray ++ ⟨#[255, 10, 41]⟩) =
          { status := 74
            output :=
              { stdout := before ++ "> "
                stderr := "[line 1] Error: Unexpected character: @\n"
                  ++ "I/O error: stream did not contain valid UTF-8\n" } } := by
  have htext : "(\n@\n".toByteArray.IsValidUTF8 := String.isValidUTF8 _
  have hend : EndsLine "(\n@\n".toByteArray.data.toList := .inr (by decide)
  have hfirst : (Program.run {} [] Directory.bare.read? "(\n@\n".toByteArray).output.stderr =
      "[line 1] Error: Unexpected character: @\n" := by decide +kernel
  have hrest : Program.run {} [] Directory.bare.read? ⟨#[255, 10, 41]⟩ =
      { status := 74
        output :=
          { stdout := "> ", stderr := "I/O error: stream did not contain valid UTF-8\n" } } := by
    decide +kernel
  obtain ⟨before, hbefore, hboth⟩ :=
    run_append {} Directory.bare.read? "(\n@\n".toByteArray ⟨#[255, 10, 41]⟩ htext hend
  exact ⟨htext, hend, before, hbefore, by rw [hboth, hfirst, hrest]⟩

/-! ## 3. Conversations that break off -/

/-- The scan of a line that was read, with nothing in the log. -/
def scanLine (line : List Char) : Scan :=
  scan {} (trimLineEnd (String.ofList line)) .empty

/-- What is read of some input before the first line that is no text. -/
def textBefore (input : List UInt8) : List UInt8 :=
  ((inputLines input).takeWhile fun line => IsText line).flatten

theorem replies_eq (options : Options) (lines : List (List Char)) :
    replies options lines =
      { stdout := String.join (lines.map fun line => "> " ++ (reply options line).stdout) ++ "> "
        stderr := String.join (lines.map fun line => (reply options line).stderr) } := by
  induction lines with
  | nil => rfl
  | cons line lines ih =>
    -- The prompt is on the one stream only.
    have hstderr : (prompt ++ reply options line).stderr = (reply options line).stderr :=
      String.empty_append
    have hstdout : (prompt ++ reply options line).stdout = "> " ++ (reply options line).stdout :=
      rfl
    rw [replies, ih, List.map_cons, List.map_cons, String.join_cons, String.join_cons,
      String.append_assoc, ← hstdout, ← hstderr]
    rfl

theorem reply_stdout (options : Options) (line : List Char) :
    (reply options line).stdout =
      Token.displayAll (scan options (trimLineEnd (String.ofList line)) .empty).tokens := by
  rw [Token.displayAll_eq]
  rfl

-- Without a trace, only diagnostics are written beside the listing.
theorem reply_stderr (line : List Char) :
    (reply {} line).stderr = Diagnostic.displayAll (scanLine line).log.toList := by
  rw [reply, Scan.output, scan_traced, Diagnostic.displayAll_eq]
  exact String.empty_append

-- The message is all that a line that is no text adds to what was written.
theorem failed_notText (written : Output) :
    Outcome.failed written (.io Failure.notText) =
      { status := 74
        output :=
          { stdout := written.stdout
            stderr := written.stderr ++ "I/O error: stream did not contain valid UTF-8\n" } } := by
  have hmessage : (Failure.io Failure.notText).message ++ "\n" =
      "I/O error: stream did not contain valid UTF-8\n" := by decide
  rw [Outcome.failed_of_ne_scan written (by simp), hmessage]
  rfl

-- Input that is no text has a first line that is no text.
theorem exists_line_of_not_isText (h : ¬ IsText input) :
    ∃ line later, inputLines input = inputLines (textBefore input) ++ line :: later
      ∧ (∀ l ∈ inputLines (textBefore input), IsText l) ∧ ¬ IsText line := by
  have hprefix : ((inputLines input).takeWhile fun line => IsText line) <+: inputLines input :=
    List.takeWhile_prefix _
  have hsplit := List.takeWhile_append_dropWhile (p := fun line => decide (IsText line))
    (l := inputLines input)
  rw [textBefore, inputLines_flatten_of_prefix hprefix]
  cases hrest : (inputLines input).dropWhile fun line => decide (IsText line) with
  | nil =>
    rw [List.dropWhile_eq_nil_iff] at hrest
    exact absurd ((isText_iff_lines input).mpr fun l hl => of_decide_eq_true (hrest l hl)) h
  | cons line later =>
    refine ⟨line, later, by rw [← hrest, hsplit], ?_, ?_⟩
    · intro l hl
      exact of_decide_eq_true (List.mem_takeWhile_imp (p := fun line => decide (IsText line)) hl)
    · have hline := List.head?_dropWhile_not (fun line => decide (IsText line)) (inputLines input)
      rw [hrest] at hline
      simpa using hline

/-- **Breaking off.** On input that is no text a run writes what it writes for the part before the
first line that is no text, and fails. -/
theorem exists_run_failed (options : Options) {input : ByteArray} (h : ¬ input.IsValidUTF8) :
    ∃ written, run options (textBefore input.data.toList).toByteArray =
        .success (written ++ prompt)
      ∧ run options input = .failed (written ++ prompt) (.io Failure.notText) := by
  rw [← isText_toList] at h
  obtain ⟨line, later, hlines, htext, hline⟩ := exists_line_of_not_isText h
  obtain ⟨written, hfirst, hrest⟩ := exists_transcript_eq_success options htext
  refine ⟨written, ?_, ?_⟩
  · rw [run_eq_transcript, List.toList_data_toByteArray, hfirst]
  · rw [run_eq_transcript, hlines, hrest, transcript, answer_of_not_isText options _ hline,
      Outcome.after_failed]

theorem run_status_eq_zero_iff (options : Options) (input : ByteArray) :
    (run options input).status = 0 ↔ input.IsValidUTF8 := by
  constructor
  · intro hstatus
    by_contra h
    obtain ⟨written, -, hrun⟩ := exists_run_failed options h
    rw [hrun] at hstatus
    cases hstatus
  · intro ⟨cs, hcs⟩
    rw [hcs, ← String.toByteArray_ofList, run_toByteArray]
    rfl

/-- **The end of a conversation.** A run succeeds exactly if its input is text. Then a prompt stands
before the listing of each line and at the end, and the diagnostics are those of the lines in order,
however many there are. Otherwise it fails with status 74 at the first line that is no text: what
comes before that line is answered as if it were all, one message follows, and neither the line nor
what comes after it has any effect. -/
theorem run_interactive (read? : Reader) :
    (∀ input : ByteArray, (Program.run {} [] read? input).status = 0 ↔ input.IsValidUTF8)
      ∧ (∀ text : String, Program.run {} [] read? text.toByteArray =
          { status := 0
            output :=
              { stdout := String.join ((Line.all text.toList).map fun line =>
                  "> " ++ Token.displayAll (scanLine line).tokens) ++ "> "
                stderr := String.join ((Line.all text.toList).map fun line =>
                  Diagnostic.displayAll (scanLine line).log.toList) } })
      ∧ ∀ input : ByteArray, ¬ input.IsValidUTF8 →
          Program.run {} [] read? input =
            { status := 74
              output :=
                { stdout := (Program.run {} [] read?
                    (textBefore input.data.toList).toByteArray).output.stdout
                  stderr := (Program.run {} [] read?
                      (textBefore input.data.toList).toByteArray).output.stderr
                    ++ "I/O error: stream did not contain valid UTF-8\n" } } := by
  refine ⟨run_status_eq_zero_iff {}, fun text => ?_, fun input h => ?_⟩
  · rw [Program.run, run_toByteArray, replies_eq]
    simp only [reply_stdout, reply_stderr]
    rfl
  · obtain ⟨written, hbefore, hrun⟩ := exists_run_failed {} h
    rw [Program.run, Program.run, hrun, hbefore, failed_notText]
    rfl

-- The line feed cuts the two bytes of one letter apart, so that the second line is no text.
theorem run_interactive_broken :
    ¬ (ByteArray.mk #[64, 10, 195, 10, 169]).IsValidUTF8
      ∧ Program.run {} [] Directory.bare.read? ⟨#[64, 10, 195, 10, 169]⟩ =
        { status := 74
          output :=
            { stdout := "> EOF  null\n> "
              stderr := "[line 1] Error: Unexpected character: @\n"
                ++ "I/O error: stream did not contain valid UTF-8\n" } } := by
  have hbroken : ¬ (ByteArray.mk #[64, 10, 195, 10, 169]).IsValidUTF8 := by decide +kernel
  refine ⟨hbroken, ?_⟩
  rw [(run_interactive Directory.bare.read?).2.2 _ hbroken]
  decide +kernel

end LoxLexer.Interactive
