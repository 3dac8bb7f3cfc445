import LoxLexer.Proofs.Program.Lines

/-!
# Input as lines of bytes

The lines of some input hold all of its bytes (`flatten_inputLines`), and input that ends a line can
be cut off there (`inputLines_append`). Whether input is text is a matter of its lines: it is text
exactly if each of them is (`isText_iff_lines`).
-/

namespace LoxLexer.Interactive

/-! ## 1. Lines of bytes, one after another -/

/-- Some input does not end in the middle of a line. -/
def EndsLine (input : List UInt8) : Prop :=
  input = [] ∨ input.getLast? = some lineFeed

variable {line tail input : List UInt8} {lines : List (List UInt8)}

theorem bne_lineFeed_of_notMem (hline : lineFeed ∉ line) : ∀ b ∈ line, (b != lineFeed) = true := by
  intro b hb
  rw [bne_iff_ne]
  exact fun heq => hline (heq ▸ hb)

theorem cutLine_append_lineFeed (hline : lineFeed ∉ line) (tail : List UInt8) :
    cutLine (line ++ lineFeed :: tail) = (line ++ [lineFeed], tail) := by
  have hne := bne_lineFeed_of_notMem hline
  rw [cutLine, List.takeWhile_append_of_pos hne, List.dropWhile_append_of_pos hne]
  simp

theorem cutLine_of_notMem (hline : lineFeed ∉ line) : cutLine line = (line, []) := by
  have hne := bne_lineFeed_of_notMem hline
  rw [cutLine, List.takeWhile_eq_self_iff.mpr hne, List.dropWhile_eq_nil_iff.mpr hne]
  simp

@[simp] theorem inputLines_nil : inputLines [] = [] := by
  rw [inputLines, dif_pos rfl]

theorem inputLines_append_lineFeed (hline : lineFeed ∉ line) (tail : List UInt8) :
    inputLines (line ++ lineFeed :: tail) = (line ++ [lineFeed]) :: inputLines tail := by
  rw [inputLines, dif_neg (by simp), cutLine_append_lineFeed hline]

theorem inputLines_of_notMem (hline : lineFeed ∉ line) (hne : line ≠ []) :
    inputLines line = [line] := by
  rw [inputLines, dif_neg hne, cutLine_of_notMem hline, inputLines_nil]

theorem flatten_inputLines (input : List UInt8) : (inputLines input).flatten = input := by
  induction input using Line.induction_separator lineFeed with
  | single line hline =>
    by_cases hne : line = []
    · rw [hne, inputLines_nil, List.flatten_nil]
    · rw [inputLines_of_notMem hline hne, List.flatten_singleton]
  | cons line tail hline ih =>
    rw [inputLines_append_lineFeed hline, List.flatten_cons, ih, List.append_assoc,
      List.singleton_append]

theorem EndsLine.of_append (h : EndsLine (line ++ lineFeed :: tail)) : EndsLine tail := by
  rcases tail with _ | ⟨b, bs⟩
  · exact .inl rfl
  · right
    simpa [EndsLine] using h

-- No line reaches from input that ends a line into what comes after it.
theorem inputLines_append (h : EndsLine input) (rest : List UInt8) :
    inputLines (input ++ rest) = inputLines input ++ inputLines rest := by
  induction input using Line.induction_separator lineFeed with
  | single line hline =>
    rcases h with rfl | hlast
    · rw [inputLines_nil, List.nil_append, List.nil_append]
    · exact absurd (List.mem_of_getLast? hlast) hline
  | cons line tail hline ih =>
    rw [List.append_assoc, List.cons_append, inputLines_append_lineFeed hline,
      inputLines_append_lineFeed hline, ih h.of_append, List.cons_append]

-- The first lines of some input are the lines of the bytes that they hold.
theorem inputLines_flatten_of_prefix (h : lines <+: inputLines input) :
    inputLines lines.flatten = lines := by
  induction input using Line.induction_separator lineFeed generalizing lines with
  | single line hline =>
    rcases lines with _ | ⟨first, others⟩
    · exact inputLines_nil
    · have hne : line ≠ [] := by
        intro hnil
        rw [hnil, inputLines_nil] at h
        cases List.prefix_nil.mp h
      rw [inputLines_of_notMem hline hne] at h
      obtain ⟨rfl, hothers⟩ := List.cons_prefix_cons.mp h
      rw [List.prefix_nil.mp hothers, List.flatten_singleton, inputLines_of_notMem hline hne]
  | cons line tail hline ih =>
    rcases lines with _ | ⟨first, others⟩
    · exact inputLines_nil
    · rw [inputLines_append_lineFeed hline] at h
      obtain ⟨rfl, hothers⟩ := List.cons_prefix_cons.mp h
      rw [List.flatten_cons, List.append_assoc, List.singleton_append,
        inputLines_append_lineFeed hline, ih hothers]

/-! ## 2. Text -/

/-- Some bytes are the UTF-8 form of a text. -/
def IsText (input : List UInt8) : Prop :=
  input.toByteArray.IsValidUTF8

instance : DecidablePred IsText := fun input =>
  inferInstanceAs (Decidable input.toByteArray.IsValidUTF8)

theorem isText_iff : IsText input ↔ ∃ cs, input = bytes cs := by
  constructor
  · intro ⟨cs, h⟩
    refine ⟨cs, ?_⟩
    have hdata : input.toByteArray.data.toList = cs.utf8Encode.data.toList := by rw [h]
    rwa [List.utf8Encode, List.toList_data_toByteArray, List.toList_data_toByteArray] at hdata
  · rintro ⟨cs, rfl⟩
    rw [IsText, toByteArray_bytes]
    exact (String.ofList cs).isValidUTF8

theorem isText_toList (input : ByteArray) : IsText input.data.toList ↔ input.IsValidUTF8 := by
  have hlist : input.data.toList.toByteArray = input := by
    apply ByteArray.ext
    rw [← Array.toList_inj, List.toList_data_toByteArray]
  rw [IsText, hlist]

theorem isText_flatten (h : ∀ line ∈ lines, IsText line) : IsText lines.flatten := by
  induction lines with
  | nil => exact isText_iff.mpr ⟨[], rfl⟩
  | cons line lines ih =>
    obtain ⟨cs, hcs⟩ := isText_iff.mp (h line List.mem_cons_self)
    obtain ⟨ds, hds⟩ := isText_iff.mp (ih fun l hl => h l (List.mem_cons_of_mem _ hl))
    exact isText_iff.mpr ⟨cs ++ ds, by rw [List.flatten_cons, hcs, hds, bytes_append]⟩

/-- **Text is made of lines of text.** A line feed inside of another character, which spoils the two
lines that it parts, spoils all of the input. -/
theorem isText_iff_lines (input : List UInt8) :
    IsText input ↔ ∀ line ∈ inputLines input, IsText line := by
  constructor
  · intro h line hline
    obtain ⟨cs, rfl⟩ := isText_iff.mp h
    rw [inputLines_bytes] at hline
    obtain ⟨ds, -, rfl⟩ := List.mem_map.mp hline
    exact isText_iff.mpr ⟨ds, rfl⟩
  · intro h
    rw [← flatten_inputLines input]
    exact isText_flatten h

end LoxLexer.Interactive
