import LoxLexer.Proofs.Element.Comments
import LoxLexer.Proofs.Element.OutOfPlace
import LoxLexer.Proofs.Scan.Append

/-!
# What a scan finds on a line

What a scan finds on a line of a text is what a scan of the code of that line finds by itself. So
nothing that stands in a comment, and nothing on another line, has an effect on what is found
(`findings_by_lines`). Which characters are reported can be told from what stands before them on
their line (`scan_reports_misplaced`).
-/

namespace LoxLexer

open Element

/-! ## 1. Lines -/

/-- The code of each line of a text. The text is split at every newline, so that its last line can
be empty. -/
def codeLines (s : String) : List (List Char) :=
  (s.toList.splitOn '\n').map Line.code

theorem length_codeLines (s : String) : (codeLines s).length = newlines s + 1 := by
  rw [codeLines, List.length_map, Line.length_splitOn_newline, newlines]

/-- What scans of the code of single lines find, put together: the findings of each line get its
number, and the text ends on the last line. -/
def Findings.ofLines (options : Options) (codes : List (List Char)) : Findings where
  tokens :=
    (codes.mapIdx fun k code =>
      (findings options (String.ofList code)).body.map (Token.atLine (k + 1))).flatten
        ++ [.endOfText codes.length]
  diagnostics :=
    (codes.mapIdx fun k code =>
      (findings options (String.ofList code)).diagnostics.map (Diagnostic.atLine (k + 1))).flatten

theorem findings_eq_ofLines (options : Options) (s : String) :
    findings options s = .ofLines options (codeLines s) := by
  have htokens := collect_eq_flatten places_token? skips_token? [] s.toList
  have hreports := collect_eq_flatten places_diagnostic? skips_diagnostic? [] s.toList
  simp only [Findings.ofLines, findings_body, findings_diagnostics, String.toList_ofList]
  rw [findings_eq, reports, htokens, hreports, length_codeLines, Nat.add_comm 1]
  rfl

/-- **Locality.** A scan finds on each line what a scan of the code of the line finds, and the text
ends on the line after its last newline. So two texts whose lines have the same code lead to the
same findings. -/
theorem findings_by_lines (options : Options) (source : String) :
    findings options source = .ofLines options (codeLines source)
      ∧ (codeLines source).length = newlines source + 1
      ∧ ∀ other, codeLines other = codeLines source →
          findings options other = findings options source := by
  refine ⟨findings_eq_ofLines options source, length_codeLines source, fun other h => ?_⟩
  rw [findings_eq_ofLines, findings_eq_ofLines, h]

-- What follows the two slashes does not matter, be it a third one, an operator or a character that
-- is out of place elsewhere.
theorem findings_by_lines_comments :
    codeLines "-//@ =\r\n//é\n" = codeLines "-///!=\n//\n"
      ∧ findings {} "-//@ =\r\n//é\n" = findings {} "-///!=\n//\n" := by
  have hcode : codeLines "-//@ =\r\n//é\n" = codeLines "-///!=\n//\n" := by decide +kernel
  exact ⟨hcode, (findings_by_lines {} "-///!=\n//\n").2.2 _ hcode⟩

/-! ## 2. Reports -/

/-- **Reports.** A scan reports the characters out of place, each of them once and in their order:
they are the characters of the text that are elements of their own and unexpected. Afterwards a log
that was empty counts as many diagnostics, and shows an error exactly if there is one. -/
theorem scan_reports_misplaced (options : Options) (text : String) :
    (scan options text .empty).log.toList =
        (misplaced text.toList).map (diagnosticAt text.toList)
      ∧ (misplaced text.toList).Pairwise (fun x y => x.2 < y.2)
      ∧ (∀ c position, (c, position) ∈ misplaced text.toList ↔
          text.toList[position]? = some c ∧ OutOfPlace (text.toList.take position) c)
      ∧ (∀ c position, (c, position) ∈ misplaced text.toList ↔
          ∃ es fs, Cut (es ++ unexpected c :: fs) text.toList
            ∧ (Element.text es).length = position)
      ∧ (scan options text .empty).log.count = (misplaced text.toList).length
      ∧ ((scan options text .empty).log.hadError = true ↔
          ∃ c position, text.toList[position]? = some c
            ∧ OutOfPlace (text.toList.take position) c) := by
  have hlog : (scan options text .empty).log.toList =
      (misplaced text.toList).map (diagnosticAt text.toList) := by
    rw [scan_log_empty, reports_eq_map_misplaced]
  refine ⟨hlog, pairwise_misplaced _, fun c position => mem_misplaced_iff, fun c position => ?_,
    ?_, ?_⟩
  · rw [mem_misplaced_iff, exists_cut_unexpected_iff]
  · rw [Log.count_eq_length, hlog, List.length_map]
  · rw [Log.hadError_iff, hlog, Ne, List.map_eq_nil_iff]
    constructor
    · intro hne
      obtain ⟨x, hx⟩ := List.exists_mem_of_ne_nil _ hne
      exact ⟨x.1, x.2, mem_misplaced_iff.mp hx⟩
    · intro ⟨c, position, h⟩
      exact List.ne_nil_of_mem (mem_misplaced_iff.mpr h)

end LoxLexer
