import LoxLexer.Program
import LoxLexer.Proofs.Line

/-!
# The lines of the input

The interactive program answers the lines of its input one after another, and the answer to a line
does not depend on the lines before it: `run_eq_transcript` says so for all input. The lines are cut
at bytes, but a line feed is never part of another character, so the lines of the bytes of a text
are the bytes of its lines (`inputLines_bytes`).
-/

namespace LoxLexer

/-! ## 1. Output that is put together -/

namespace Output

@[simp] theorem stdout_append (first second : Output) :
    (first ++ second).stdout = first.stdout ++ second.stdout :=
  rfl

@[simp] theorem stderr_append (first second : Output) :
    (first ++ second).stderr = first.stderr ++ second.stderr :=
  rfl

theorem append_assoc (first second third : Output) :
    first ++ second ++ third = first ++ (second ++ third) := by
  show append (append first second) third = append first (append second third)
  simp only [append, String.append_assoc]

theorem empty_append (output : Output) : {} ++ output = output := by
  show append {} output = output
  simp only [append, String.empty_append]

theorem append_empty (output : Output) : output ++ {} = output := by
  show append output {} = output
  simp only [append, String.append_empty]

theorem lines_append (xs ys : List String) : lines (xs ++ ys) = lines xs ++ lines ys := by
  rw [lines, List.map_append, String.join_append, lines, lines]

theorem lines_singleton (text : String) : lines [text] = text ++ "\n" := by
  rw [lines, List.map_singleton, String.join_cons, String.join_nil, String.append_empty]

end Output

theorem Token.display_eq_append (t : Token) :
    t.display = t.kind.name ++ " " ++ t.lexeme ++ " null" := by
  rw [display, displayLiteral_eq, String.append_assoc]
  rfl

/-- The text of a listing. -/
def Token.displayAll (ts : List Token) : String :=
  String.join (ts.map fun t => t.kind.name ++ " " ++ t.lexeme ++ " null\n")

theorem Token.displayAll_eq (ts : List Token) : displayAll ts = Output.lines (ts.map display) := by
  have hline : ∀ t : Token, t.kind.name ++ " " ++ t.lexeme ++ " null\n" = t.display ++ "\n" := by
    intro t
    have hnull : " null\n" = " null" ++ "\n" := by decide
    rw [display_eq_append, hnull, ← String.append_assoc]
  rw [displayAll, funext hline, Output.lines, List.map_map]
  rfl

/-- The text of diagnostics that are written one after another. -/
def Diagnostic.displayAll (ds : List Diagnostic) : String :=
  String.join (ds.map fun d =>
    "[line " ++ Nat.repr d.line ++ "] Error: " ++ d.message ++ "\n")

theorem Diagnostic.displayAll_eq (ds : List Diagnostic) :
    displayAll ds = Output.lines (ds.map display) := by
  rw [displayAll, Output.lines, List.map_map]
  rfl

theorem Diagnostic.displayAll_append (ds es : List Diagnostic) :
    displayAll (ds ++ es) = displayAll ds ++ displayAll es := by
  rw [displayAll_eq, List.map_append, Output.lines_append, displayAll_eq, displayAll_eq]

def Outcome.after (written : Output) (outcome : Outcome) : Outcome :=
  { outcome with output := written ++ outcome.output }

theorem Outcome.after_after (first second : Output) (outcome : Outcome) :
    (outcome.after second).after first = outcome.after (first ++ second) := by
  simp only [after, Output.append_assoc]

theorem Outcome.after_success (written output : Output) :
    (success output).after written = success (written ++ output) :=
  rfl

theorem Outcome.after_failed (written output : Output) (failure : Failure) :
    (failed output failure).after written = failed (written ++ output) failure := by
  simp only [after, failed, Output.append_assoc]

-- But for scans, a failure adds its message to what was written.
theorem Outcome.failed_of_ne_scan (written : Output) {failure : Failure}
    (h : ∀ count, failure ≠ .scan count) :
    failed written failure =
      { status := failure.exitStatus
        output :=
          { stdout := written.stdout
            stderr := written.stderr ++ (failure.message ++ "\n") } } := by
  have houtput : failure.output = { stdout := "", stderr := failure.message ++ "\n" } := by
    cases failure with
    | scan count => exact absurd rfl (h count)
    | _ => exact congrArg (Output.mk "") (Output.lines_singleton _)
  have hstdout : written.stdout ++ "" = written.stdout := String.append_empty
  rw [failed, houtput, ← hstdout]
  rfl

namespace Interactive

/-! ## 2. Lines of bytes -/

/-- The lines of the input, each with the line feed that ends it. -/
def inputLines (input : List UInt8) : List (List UInt8) :=
  if _ : input = [] then [] else (cutLine input).1 :: inputLines (cutLine input).2
termination_by input.length
decreasing_by exact length_cutLine_lt ‹_›

/-- What is written for lines, each of them answered on its own after a prompt. The first line that
is no text ends the run. -/
def transcript (options : Options) : List (List UInt8) → Outcome
  | [] => .success prompt
  | line :: rest =>
    match answer options .empty line with
    | .error failure => .failed prompt failure
    | .ok (output, _) => (transcript options rest).after (prompt ++ output)

-- An answer leaves nothing in the log.
theorem log_of_answer {options : Options} {log log' : Log} {line : List UInt8} {output : Output}
    (h : answer options log line = .ok (output, log')) : log' = .empty := by
  unfold answer at h
  split at h
  · cases h
  · injection h with h
    exact (Prod.mk.inj h).2.symm

theorem converse_eq_transcript (options : Options) (written : Output) (input : List UInt8) :
    converse options .empty written input =
      (transcript options (inputLines input)).after written := by
  -- The log is empty before the first line, and every answer leaves it empty for the next.
  by_cases hinput : input = []
  · rw [converse, inputLines, dif_pos hinput, dif_pos hinput]
    rfl
  · have hlt : (cutLine input).2.length < input.length := length_cutLine_lt hinput
    rw [converse, inputLines, dif_neg hinput, dif_neg hinput, transcript]
    cases hanswer : answer options .empty (cutLine input).1 with
    | error failure => exact (Outcome.after_failed written prompt failure).symm
    | ok answered =>
      obtain ⟨output, log⟩ := answered
      obtain rfl : log = .empty := log_of_answer hanswer
      show converse options .empty (written ++ prompt ++ output) (cutLine input).2 = _
      rw [converse_eq_transcript options _ (cutLine input).2, Outcome.after_after,
        Output.append_assoc]
termination_by input.length

/-- **Independent lines.** A run answers each line of its input as if it were the only one. -/
theorem run_eq_transcript (options : Options) (input : ByteArray) :
    run options input = transcript options (inputLines input.data.toList) := by
  rw [run, converse_eq_transcript, Outcome.after, Output.empty_append]

/-! ## 3. Lines of text -/

def bytes (cs : List Char) : List UInt8 :=
  cs.flatMap String.utf8EncodeChar

theorem bytes_append (cs ds : List Char) : bytes (cs ++ ds) = bytes cs ++ bytes ds :=
  List.flatMap_append

theorem toList_toByteArray (s : String) : s.toByteArray.data.toList = bytes s.toList := by
  rw [← String.utf8Encode_toList, List.utf8Encode, List.toList_data_toByteArray]
  rfl

theorem toByteArray_bytes (cs : List Char) :
    (bytes cs).toByteArray = (String.ofList cs).toByteArray := by
  rw [String.toByteArray_ofList]
  rfl

theorem fromUTF8?_toByteArray (s : String) : String.fromUTF8? s.toByteArray = some s := by
  rw [String.fromUTF8?, dif_pos s.isValidUTF8]
  rfl

theorem lineFeed_ne_ofNat {n : Nat} (h : n < 256) (hn : n ≠ 10) : lineFeed ≠ UInt8.ofNat n := by
  intro heq
  have hnat := congrArg UInt8.toNat heq
  rw [UInt8.toNat_ofNat_of_lt' h] at hnat
  exact hn hnat.symm

-- In UTF-8 a line feed is only part of the newline.
theorem lineFeed_notMem_utf8EncodeChar {c : Char} (h : c ≠ '\n') :
    lineFeed ∉ String.utf8EncodeChar c := by
  have hval : c.val.toNat ≠ 10 := fun hval => h (Char.ext (UInt32.toNat_inj.mp hval))
  unfold String.utf8EncodeChar
  dsimp only
  split_ifs
  · rw [List.mem_singleton]
    exact lineFeed_ne_ofNat (by omega) hval
  -- The bytes of a longer character are at least 128.
  all_goals
    simp only [List.mem_cons, List.not_mem_nil, or_false, not_or]
    and_intros <;> exact lineFeed_ne_ofNat (by omega) (by omega)

-- Cutting at the first line feed is cutting at the first newline.
theorem cutLine_bytes (cs : List Char) :
    cutLine (bytes cs) = (bytes (Line.first cs), bytes (Line.later cs)) := by
  have hhead : ∀ b ∈ bytes (Line.head cs), (b != lineFeed) = true := by
    intro b hb
    obtain ⟨c, hc, hmem⟩ := List.mem_flatMap.mp hb
    have hne : c ≠ '\n' := fun heq => Line.newline_notMem_head cs (heq ▸ hc)
    rw [bne_iff_ne]
    intro heq
    exact lineFeed_notMem_utf8EncodeChar hne (heq ▸ hmem)
  have hrest : (bytes (Line.rest cs)).takeWhile (· != lineFeed) = []
      ∧ (bytes (Line.rest cs)).take 1 = bytes ((Line.rest cs).take 1)
      ∧ (bytes (Line.rest cs)).drop 1 = bytes ((Line.rest cs).drop 1) := by
    rcases Line.ends_rest cs with hnil | hnewline
    · rw [hnil]
      exact ⟨rfl, rfl, rfl⟩
    · obtain ⟨tail, htail⟩ := List.head?_eq_some_iff.mp hnewline
      rw [htail]
      exact ⟨rfl, rfl, rfl⟩
  obtain ⟨hstop, htake, hdrop⟩ := hrest
  have hsplit : bytes cs = bytes (Line.head cs) ++ bytes (Line.rest cs) := by
    rw [← bytes_append, Line.head_append_rest]
  have hdropWhile : (bytes cs).dropWhile (· != lineFeed) = bytes (Line.rest cs) := by
    rw [hsplit, List.dropWhile_append_of_pos hhead]
    have h := List.takeWhile_append_dropWhile (p := (· != lineFeed)) (l := bytes (Line.rest cs))
    rwa [hstop, List.nil_append] at h
  have htakeWhile : (bytes cs).takeWhile (· != lineFeed) = bytes (Line.head cs) := by
    rw [hsplit, List.takeWhile_append_of_pos hhead, hstop, List.append_nil]
  simp only [cutLine, hdropWhile, htakeWhile, htake, hdrop, Line.first, Line.later, bytes_append]

-- The lines of the bytes of a text are the bytes of its lines.
theorem inputLines_bytes (cs : List Char) : inputLines (bytes cs) = (Line.all cs).map bytes := by
  induction cs using Line.induction_later with
  | nil =>
    rw [Line.all_nil, inputLines]
    rfl
  | cons cs hcs ih =>
    have hbytes : bytes cs ≠ [] := by
      obtain ⟨c, tail, rfl⟩ := List.exists_cons_of_ne_nil hcs
      simp [bytes, String.utf8EncodeChar_ne_nil]
    rw [inputLines, dif_neg hbytes, Line.all_of_ne_nil hcs, cutLine_bytes, List.map_cons, ih]

/-- What is written for a line of text when nothing is in the log. -/
def reply (options : Options) (line : List Char) : Output :=
  (scan options (trimLineEnd (String.ofList line)) .empty).output

theorem answer_bytes (options : Options) (line : List Char) :
    answer options .empty (bytes line) = .ok (reply options line, .empty) := by
  rw [answer, toByteArray_bytes, fromUTF8?_toByteArray]
  rfl

def replies (options : Options) : List (List Char) → Output
  | [] => prompt
  | line :: rest => prompt ++ reply options line ++ replies options rest

/-- **Lines of text.** A run on a text succeeds with the replies to all of its lines. -/
theorem run_toByteArray (options : Options) (text : String) :
    run options text.toByteArray = .success (replies options (Line.all text.toList)) := by
  rw [run_eq_transcript, toList_toByteArray, inputLines_bytes]
  induction Line.all text.toList with
  | nil => rfl
  | cons line rest ih =>
    rw [List.map_cons, transcript, answer_bytes]
    show (transcript options (rest.map bytes)).after (prompt ++ reply options line) = _
    rw [ih, Outcome.after_success]
    rfl

end Interactive

end LoxLexer
