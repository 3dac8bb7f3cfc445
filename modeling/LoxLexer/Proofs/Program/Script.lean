import LoxLexer.Proofs.Directory
import LoxLexer.Proofs.Element.OutOfPlace
import LoxLexer.Proofs.Program.Agreement

/-!
# Runs with arguments

What a run with arguments writes and how it ends, whatever can be read and whatever is typed in
(`run_with_arguments`). A run that scans a script writes the whole listing, also when it fails; and
whether it fails can be told from the characters of the script.
-/

namespace LoxLexer

open Element

variable {path : String} {contents? : Option ByteArray}

/-! ## 1. Failures -/

-- Nothing was written before these failures.
theorem failed_usage :
    Outcome.failed {} .usage =
      { status := 64, output := { stdout := "", stderr := "Usage: loxscan [script]\n" } } := by
  decide

theorem failed_unreadable (path cause : String) :
    Outcome.failed {} (.unreadable path cause) =
      { status := 74
        output :=
          { stdout := "", stderr := "Could not read file \"" ++ path ++ "\".\n" } } := by
  have hend : "\".\n" = "\"." ++ "\n" := by decide
  have hmessage : "" ++ ((Failure.unreadable path cause).message ++ "\n") =
      "Could not read file \"" ++ path ++ "\".\n" := by
    rw [String.empty_append, hend, ← String.append_assoc]
    rfl
  rw [Outcome.failed_of_ne_scan {} (by simp), hmessage]
  rfl

/-! ## 2. Scripts -/

-- A script that cannot be read is not scanned, be it missing or no text.
theorem script_of_not_text (options : Options)
    (h : ∀ bytes, contents? = some bytes → ¬ bytes.IsValidUTF8) :
    Program.script options path contents? =
      { status := 74
        output :=
          { stdout := "", stderr := "Could not read file \"" ++ path ++ "\".\n" } } := by
  cases hcontents : contents? with
  | none => exact failed_unreadable path _
  | some bytes =>
    have hnone : String.fromUTF8? bytes = none := dif_neg (h bytes hcontents)
    rw [Program.script]
    dsimp only
    rw [hnone]
    exact failed_unreadable path _

-- The listing of a scan ends with the end of the text, and beside it stand the diagnostics.
theorem exists_listing (text : String) :
    ∃ listed, (scan {} text .empty).tokens.map (fun t =>
        t.kind.name ++ " " ++ t.lexeme ++ " null") = listed ++ ["EOF  null"]
      ∧ (scan {} text .empty).output =
        { stdout := String.join ((listed ++ ["EOF  null"]).map (· ++ "\n"))
          stderr := Diagnostic.displayAll (scan {} text .empty).log.toList } := by
  have hdisplay : (fun t : Token => t.kind.name ++ " " ++ t.lexeme ++ " null") = Token.display :=
    funext fun t => t.display_eq_append.symm
  have hlisted : (scan {} text .empty).tokens.map Token.display =
      (collect token? [] (ofChars text.toList)).map Token.display ++ ["EOF  null"] := by
    rw [scan_tokens, tokens_eq_collect, List.map_append]
    rfl
  refine ⟨_, by rw [hdisplay, hlisted], ?_⟩
  rw [← hlisted, scan_log_empty, ← output_stderr]
  rfl

theorem hadError_scan_iff (options : Options) (text : String) :
    (scan options text .empty).log.hadError = true ↔
      ∃ c position, text.toList[position]? = some c
        ∧ OutOfPlace (text.toList.take position) c := by
  rw [Log.hadError_iff, scan_log_empty, reports_ne_nil_iff]

/-- **Runs with arguments.** (1) More than one argument are refused, whatever they are. (2) One
argument that names no text is refused, and nothing is listed. (3) One argument that names a text
has it scanned: the listing of all tokens, which ends with the end of the text, and the diagnostics
in their order are all that is written; the status tells whether some character is out of place, and
nothing else. (4) Neither the input nor what is read under another path has an effect. (5) Of a
directory, only the folders on the way and the file to which they lead have one. -/
theorem run_with_arguments :
    (∀ first second rest read? input, Program.run {} (first :: second :: rest) read? input =
        { status := 64, output := { stdout := "", stderr := "Usage: loxscan [script]\n" } })
      ∧ (∀ path read? input, (∀ bytes, read? path = some bytes → ¬ bytes.IsValidUTF8) →
          Program.run {} [path] read? input =
            { status := 74
              output :=
                { stdout := "", stderr := "Could not read file \"" ++ path ++ "\".\n" } })
      ∧ (∀ path read? input text, read? path = some text.toByteArray →
          ∃ listed, (scan {} text .empty).tokens.map (fun t =>
              t.kind.name ++ " " ++ t.lexeme ++ " null") = listed ++ ["EOF  null"]
            ∧ (Program.run {} [path] read? input).output =
              { stdout := String.join ((listed ++ ["EOF  null"]).map (· ++ "\n"))
                stderr := Diagnostic.displayAll (scan {} text .empty).log.toList }
            ∧ (Program.run {} [path] read? input).status ∈ [0, 65]
            ∧ ((Program.run {} [path] read? input).status = 65 ↔
              ∃ c position, text.toList[position]? = some c
                ∧ OutOfPlace (text.toList.take position) c))
      ∧ (∀ path read? read?' input input', read?' path = read? path →
          Program.run {} [path] read?' input' = Program.run {} [path] read? input)
      ∧ ∀ path dir dir' input input', Directory.SameFor path dir dir' →
          Program.run {} [path] dir'.read? input' = Program.run {} [path] dir.read? input := by
  have hagree : ∀ path read? read?' input input', read?' path = read? path →
      Program.run {} [path] read?' input' = Program.run {} [path] read? input := by
    intro path read? read?' input input' h
    rw [Program.run, Program.run, h]
  refine ⟨fun first second rest read? input => failed_usage,
    fun path read? input h => script_of_not_text {} h, fun path read? input text h => ?_, hagree,
    fun path dir dir' input input' h => hagree path dir.read? dir'.read? input input' h.read?_eq⟩
  obtain ⟨listed, hlisted, houtput⟩ := exists_listing text
  have hrun : Program.run {} [path] read? input =
      { status := if (scan {} text .empty).log.hadError then 65 else 0
        output := (scan {} text .empty).output } := by
    rw [Program.run, h, script_toByteArray]
  refine ⟨listed, hlisted, by rw [hrun, houtput], ?_, ?_⟩
  · rw [hrun]
    dsimp only
    split <;> decide
  · rw [hrun, ← hadError_scan_iff {}]
    dsimp only
    split <;> simp_all

/-- A directory of two files: a script with a character that is out of place, and, in a folder of its
own, a file that is no text. -/
def twoFiles : Directory :=
  .ofEntries ["d"] [("a", "(é//é\n@".toByteArray), ("d/b", ⟨#[40, 255]⟩)]

/-- The directory without the second file and its folder. -/
def oneFile : Directory :=
  .ofEntries [] [("a", "(é//é\n@".toByteArray)]

-- The path goes up from the working folder and back into it, and not through the other folder.
theorem sameFor_oneFile : Directory.SameFor "../work/a" twoFiles oneFile where
  start := by decide +kernel
  folders := by decide +kernel
  named place h := by
    have hsame : (twoFiles.place? "../work/a").bind oneFile.file? =
        (twoFiles.place? "../work/a").bind twoFiles.file? := by decide +kernel
    rwa [h, Option.bind_some, Option.bind_some] at hsame

theorem run_with_arguments_two_files :
    (∀ bytes, twoFiles.read? "d/b" = some bytes → ¬ bytes.IsValidUTF8)
      ∧ Program.run {} ["d/b"] twoFiles.read? .empty =
        { status := 74
          output := { stdout := "", stderr := "Could not read file \"d/b\".\n" } }
      ∧ twoFiles.read? "/work/a" = some "(é//é\n@".toByteArray
      ∧ (Program.run {} ["/work/a"] twoFiles.read? .empty).status = 65
      ∧ (Program.run {} ["/work/a"] twoFiles.read? .empty).output.stderr =
        "[line 1] Error: Unexpected character: é\n[line 2] Error: Unexpected character: @\n"
      ∧ Program.run {} ["/work/a"] (fun _ => some "(é//é\n@".toByteArray) "(\n".toByteArray =
        Program.run {} ["/work/a"] twoFiles.read? .empty
      ∧ Program.run {} ["../work/a"] oneFile.read? "(\n".toByteArray =
        Program.run {} ["../work/a"] twoFiles.read? .empty := by
  have hbroken : ∀ bytes, twoFiles.read? "d/b" = some bytes → ¬ bytes.IsValidUTF8 := by
    have hread : twoFiles.read? "d/b" = some ⟨#[40, 255]⟩ := by decide +kernel
    intro bytes hbytes
    rw [hread] at hbytes
    cases hbytes
    decide +kernel
  have hread : twoFiles.read? "/work/a" = some "(é//é\n@".toByteArray := by decide +kernel
  obtain ⟨listed, -, houtput, -, hstatus⟩ :=
    run_with_arguments.2.2.1 "/work/a" twoFiles.read? .empty "(é//é\n@" hread
  refine ⟨hbroken, ?_, hread, ?_, ?_, ?_, ?_⟩
  · rw [run_with_arguments.2.1 "d/b" twoFiles.read? .empty hbroken]
    decide +kernel
  · exact hstatus.mpr ⟨'é', 1, by decide +kernel⟩
  · rw [houtput]
    show Diagnostic.displayAll (scan {} "(é//é\n@" .empty).log.toList = _
    decide +kernel
  · exact run_with_arguments.2.2.2.1 "/work/a" twoFiles.read? (fun _ => some "(é//é\n@".toByteArray)
      .empty "(\n".toByteArray hread.symm
  · exact run_with_arguments.2.2.2.2 "../work/a" twoFiles oneFile .empty "(\n".toByteArray
      sameFor_oneFile

end LoxLexer
