import LoxLexer.Proofs.Element.Meaning
import LoxLexer.Scan
import Mathlib.Data.String.Basic

/-!
# The window of a scan

A state of a scan holds byte offsets. It stands for a `Window`: the text cut into the characters
before the element being read, those of the element read so far, and those not read yet
(`State.Sees`). `Sees.step` says all that a move can do: it reads the next character, or looks
without reading, or closes the element; and the elements still to come, counted from the window,
give together with what was found so far the same findings before and after the move.
-/

namespace LoxLexer.Scan

/-! ## 1. Windows -/

/-- A text as a scan sees it from the middle of an element. -/
structure Window where
  before : List Char
  element : List Char
  rest : List Char

namespace Window

def read (w : Window) (c : Char) (tail : List Char) : Window :=
  { w with element := w.element ++ [c], rest := tail }

def close (w : Window) : Window :=
  { before := w.before ++ w.element, element := [], rest := w.rest }

/-- What a move that leads to a phase does to a window. -/
inductive Move (w : Window) : Phase → Window → Prop
  | read {c : Char} {tail : List Char} {phase : Phase} :
    w.rest = c :: tail → phase ≠ .ready → Move w phase (w.read c tail)
  | stay {phase : Phase} : phase ≠ .ready → Move w phase w
  | close : Move w .ready w.close

end Window

/-- What the phase says about the characters of the element that were read. -/
def Phase.Covers : Phase → List Char → Prop
  | ready, element => element = []
  | opened c, element => element = [c]
  | closed p, element => element = p.spelling.toList
  | comment, element => ∃ body, element = '/' :: '/' :: body ∧ '\n' ∉ body

/-- A state stands for a window on a text. -/
structure State.Sees (text : String) (st : State) (w : Window) : Prop where
  text_eq : text.toList = w.before ++ w.element ++ w.rest
  start_eq : st.start = ⟨String.utf8Len w.before⟩
  offset_eq : st.offset = ⟨String.utf8Len (w.before ++ w.element)⟩
  line_eq : st.line = lineAfter w.before
  covers : st.phase.Covers w.element

variable {text : String} {st : State} {w : Window} {c : Char} {tail : List Char} {phase : Phase}

theorem State.sees_initial (text : String) (log : Log) :
    (State.initial log).Sees text { before := [], element := [], rest := text.toList } where
  text_eq := rfl
  start_eq := rfl
  offset_eq := rfl
  line_eq := rfl
  covers := rfl

/-! ## 2. Looking at the text -/

-- The character at the offset behind some characters is the one that follows them.
theorem peek?_of_toList_eq {before rest : List Char} (h : text.toList = before ++ rest) :
    peek? text ⟨String.utf8Len before⟩ = rest.head? := by
  have htext : text = String.ofList (before ++ rest) := by rw [← h, String.ofList_toList]
  have hget := String.get?_of_valid before rest
  rw [peek?, htext, hget, String.utf8ByteSize_ofList, String.utf8Len_append]
  split
  · rfl
  · -- Only the end of the text is not before the end of the text.
    rename_i hle
    have hzero : String.utf8Len rest = 0 := by
      dsimp only at hle
      omega
    rw [String.utf8Len_eq_zero.mp hzero]
    rfl

theorem isValid_of_toList_eq {before rest : List Char} (h : text.toList = before ++ rest) :
    (⟨String.utf8Len before⟩ : String.Pos.Raw).IsValid text := by
  rw [String.Pos.Raw.isValid_iff_exists_append]
  refine ⟨String.ofList before, String.ofList rest, ?_, ?_⟩
  · rw [← String.ofList_append, ← h, String.ofList_toList]
  · rw [String.rawEndPos_ofList]

namespace State.Sees

theorem peek?_eq (h : st.Sees text w) : peek? text st.offset = w.rest.head? := by
  rw [h.offset_eq]
  exact peek?_of_toList_eq h.text_eq

-- The slice between the two offsets is what was read of the element.
theorem lexeme_eq (h : st.Sees text w) : st.lexeme text = String.ofList w.element := by
  have htext : text = String.ofList (w.before ++ w.element ++ w.rest) := by
    rw [← h.text_eq, String.ofList_toList]
  rw [State.lexeme, h.start_eq, h.offset_eq, htext, String.utf8Len_append]
  exact String.extract_of_valid w.before w.element w.rest

theorem start_isValid (h : st.Sees text w) : st.start.IsValid text := by
  rw [h.start_eq]
  exact isValid_of_toList_eq (h.text_eq.trans (List.append_assoc ..))

theorem offset_isValid (h : st.Sees text w) : st.offset.IsValid text := by
  rw [h.offset_eq]
  exact isValid_of_toList_eq h.text_eq

theorem start_le_offset (h : st.Sees text w) : st.start ≤ st.offset := by
  rw [h.start_eq, h.offset_eq, String.Pos.Raw.le_iff, String.utf8Len_append]
  exact Nat.le_add_right ..

/-! ## 3. Moves -/

theorem take (h : st.Sees text w) (hrest : w.rest = c :: tail)
    (hcovers : phase.Covers (w.element ++ [c])) :
    (st.take c phase).Sees text (w.read c tail) where
  text_eq := by
    rw [h.text_eq, hrest]
    simp [Window.read]
  start_eq := h.start_eq
  offset_eq := by
    rw [State.take, h.offset_eq, String.Pos.Raw.ext_iff, String.Pos.Raw.byteIdx_add_char]
    simp only [Window.read, String.utf8Len_append, String.utf8Len_cons, String.utf8Len_nil]
    omega
  line_eq := h.line_eq
  covers := hcovers

theorem turn (h : st.Sees text w) (hcovers : phase.Covers w.element) :
    State.Sees text { st with phase } w :=
  { h with covers := hcovers }

theorem finish (h : st.Sees text w) (hline : '\n' ∉ w.element) : st.finish.Sees text w.close where
  text_eq := by
    rw [h.text_eq]
    simp [Window.close]
  start_eq := h.offset_eq
  offset_eq := by
    rw [State.finish, h.offset_eq]
    simp [Window.close]
  line_eq := by
    rw [State.finish, h.line_eq, Window.close, lineAfter_append_of_notMem w.before hline]
  covers := rfl

theorem finish_newline (h : st.Sees text w) (hline : w.element = ['\n']) :
    State.Sees text { st.finish with line := st.line + 1 } w.close where
  text_eq := by
    rw [h.text_eq]
    simp [Window.close]
  start_eq := h.offset_eq
  offset_eq := by
    rw [State.finish, h.offset_eq]
    simp [Window.close]
  line_eq := by
    simp only [h.line_eq, Window.close, hline, lineAfter, List.count_append]
    rfl
  covers := rfl

theorem record (h : st.Sees text w) (options : Options) (token : Token) :
    (st.record options token).Sees text w :=
  { h with }

theorem report (h : st.Sees text w) (error : LexicalError) : (st.report error).Sees text w :=
  { h with }

end State.Sees

end LoxLexer.Scan
