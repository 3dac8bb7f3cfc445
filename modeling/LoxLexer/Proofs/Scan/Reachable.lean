import LoxLexer.Proofs.Scan.Moves
import Mathlib.Logic.Function.Iterate

/-!
# The states that a scan reaches

Every state that a scan reaches keeps its two offsets in order, inside the text and between
characters, and its slice and its line are those of the characters read (`State.InBounds`). Numbers
of 64 bits hold all offsets and lines of a text below 2^63 bytes. Each turn reads a character, so
the scan halts after at most one turn for each character (`reachable_inBounds`).
-/

namespace LoxLexer.Scan

/-! ## 1. Moves counted from the start -/

section Definitions

variable (options : Options) (text : String) (log : Log)

def State.after (n : Nat) : State :=
  (step options text)^[n] (.initial log)

/-- The character that the next move reads: the one at the offset, if the move changes the
offset. -/
def State.reads? (st : State) : Option Char :=
  if (step options text st).offset = st.offset then none else peek? text st.offset

/-- The characters that the first `n` moves have read since the element being read began. -/
def elementAfter : Nat → List Char
  | 0 => []
  | n + 1 =>
    if (State.after options text log (n + 1)).phase = .ready then []
    else elementAfter n ++ ((State.after options text log n).reads? options text).toList

/-- The scan stands between two elements, and something is left to read. -/
def State.BeginsTurn (text : String) (st : State) : Prop :=
  st.phase = .ready ∧ st.halted text = false

instance (text : String) (st : State) : Decidable (st.BeginsTurn text) :=
  inferInstanceAs (Decidable (_ ∧ _))

/-- The moves among the first `n` with which a turn begins. -/
def turns (n : Nat) : List Nat :=
  (List.range n).filter fun k => (State.after options text log k).BeginsTurn text

end Definitions

/-- Where a state may stand whose element consists of the given characters so far. -/
structure State.InBounds (text : String) (st : State) (element : List Char) : Prop where
  start_le_offset : st.start ≤ st.offset
  offset_le_size : st.offset.byteIdx ≤ text.utf8ByteSize
  start_isValid : st.start.IsValid text
  offset_isValid : st.offset.IsValid text
  slice_eq : st.start.extract text st.offset = String.ofList element
  line_eq : st.line = lineAfter ((0 : String.Pos.Raw).extract text st.start).toList
  line_eq_of_ready :
    st.phase = .ready → st.line = lineAfter ((0 : String.Pos.Raw).extract text st.offset).toList
  offset_lt : st.offset.byteIdx < 2 ^ 64
  line_lt : st.line < 2 ^ 64

variable {options : Options} {text : String} {log : Log} {st : State} {w : Window}

theorem State.after_succ (n : Nat) :
    State.after options text log (n + 1) = step options text (State.after options text log n) :=
  Function.iterate_succ_apply' ..

/-! ## 2. What a move reads -/

-- A turn begins with reading a character.
theorem State.BeginsTurn.exists_reads? (options : Options) (h : st.BeginsTurn text) :
    ∃ c, st.reads? options text = some c := by
  obtain ⟨hphase, hhalted⟩ := h
  have hsome : (peek? text st.offset).isSome := by
    simpa [State.halted, hphase, Option.isSome_iff_ne_none] using hhalted
  obtain ⟨c, hc⟩ := Option.isSome_iff_exists.mp hsome
  have hne : (step options text st).offset ≠ st.offset := by
    have hpos := c.utf8Size_pos
    simp only [step, hphase, hc, State.take, Ne, String.Pos.Raw.ext_iff,
      String.Pos.Raw.byteIdx_add_char]
    omega
  exact ⟨c, by rw [State.reads?, if_neg hne, hc]⟩

namespace State.Sees

-- A move that reads no character leaves the offset, and one that reads a character adds the width
-- of that character.
theorem step_cases (options : Options) (h : st.Sees text w) :
    ∃ w', (Scan.step options text st).Sees text w'
      ∧ ((∃ c tail, w.rest = c :: tail ∧ w' = w.read c tail ∧ st.reads? options text = some c
            ∧ (Scan.step options text st).phase ≠ .ready)
        ∨ (w' = w ∧ st.reads? options text = none ∧ (Scan.step options text st).phase ≠ .ready)
        ∨ (w' = w.close ∧ st.reads? options text = none
            ∧ (Scan.step options text st).phase = .ready)) := by
  obtain ⟨w', hmove, hsees, -⟩ := h.step options
  refine ⟨w', hsees, ?_⟩
  generalize hphase : (Scan.step options text st).phase = phase at hmove
  cases hmove with
  | @read c tail _ hrest hready =>
    have hne : (Scan.step options text st).offset ≠ st.offset := by
      have hpos := c.utf8Size_pos
      rw [hsees.offset_eq, h.offset_eq, Ne, String.Pos.Raw.ext_iff]
      simp only [Window.read, String.utf8Len_append, String.utf8Len_cons]
      omega
    refine .inl ⟨c, tail, hrest, rfl, ?_, hready⟩
    rw [State.reads?, if_neg hne, h.peek?_eq, hrest, List.head?_cons]
  | stay hready =>
    have heq : (Scan.step options text st).offset = st.offset := by
      rw [hsees.offset_eq, h.offset_eq]
    exact .inr (.inl ⟨rfl, by rw [State.reads?, if_pos heq], hready⟩)
  | close =>
    have heq : (Scan.step options text st).offset = st.offset := by
      rw [hsees.offset_eq, h.offset_eq]
      simp [Window.close]
    exact .inr (.inr ⟨rfl, by rw [State.reads?, if_pos heq], rfl⟩)

theorem offset_step (options : Options) (h : st.Sees text w) :
    (Scan.step options text st).offset.byteIdx =
      st.offset.byteIdx + (st.reads? options text).elim 0 Char.utf8Size := by
  obtain ⟨w', hsees, ⟨c, tail, -, rfl, hreads, -⟩ | ⟨rfl, hreads, -⟩ | ⟨rfl, hreads, -⟩⟩ :=
    h.step_cases options
  · rw [hsees.offset_eq, h.offset_eq, hreads]
    simp only [Window.read, String.utf8Len_append, String.utf8Len_cons, String.utf8Len_nil,
      Option.elim_some]
    omega
  · rw [hsees.offset_eq, h.offset_eq, hreads]
    rfl
  · rw [hsees.offset_eq, h.offset_eq, hreads]
    simp [Window.close]

end State.Sees

/-! ## 3. All moves -/

theorem turns_succ (options : Options) (text : String) (log : Log) (n : Nat) :
    turns options text log (n + 1) = turns options text log n
      ++ if (State.after options text log n).BeginsTurn text then [n] else [] := by
  rw [turns, List.range_succ, List.filter_append, List.filter_singleton, ← turns]
  split <;> simp_all

-- Every state that is reached stands for a window whose element is what the moves have read, and
-- there is a character read for each turn.
theorem exists_sees_after (options : Options) (text : String) (log : Log) (n : Nat) :
    ∃ w, (State.after options text log n).Sees text w ∧ w.element = elementAfter options text log n
      ∧ (turns options text log n).length ≤ w.before.length + w.element.length := by
  -- The window carries the induction: a move adds a character to it, leaves it or closes it, and
  -- only a move that adds a character can begin a turn.
  induction n with
  | zero => exact ⟨_, State.sees_initial text log, rfl, Nat.zero_le _⟩
  | succ n ih =>
    obtain ⟨w, h, helement, hturns⟩ := ih
    obtain ⟨w', hsees, hcases⟩ := h.step_cases options
    rw [← State.after_succ] at hsees hcases
    refine ⟨w', hsees, ?_⟩
    have hidle : (State.after options text log n).reads? options text = none →
        turns options text log (n + 1) = turns options text log n := by
      intro hnone
      rw [turns_succ, if_neg, List.append_nil]
      intro hturn
      obtain ⟨c, hc⟩ := hturn.exists_reads? options
      rw [hnone] at hc
      cases hc
    rcases hcases with ⟨c, tail, -, rfl, hreads, hphase⟩ | ⟨rfl, hreads, hphase⟩ |
      ⟨rfl, hreads, hphase⟩
    · rw [elementAfter, if_neg hphase, hreads, ← helement, turns_succ]
      refine ⟨rfl, ?_⟩
      simp only [Window.read, List.length_append, List.length_singleton]
      split <;> simp only [List.length_singleton, List.length_nil] <;> omega
    · rw [elementAfter, if_neg hphase, hreads, ← helement, hidle hreads]
      exact ⟨(List.append_nil _).symm, hturns⟩
    · rw [elementAfter, if_pos hphase, hidle hreads]
      refine ⟨rfl, ?_⟩
      simpa [Window.close] using hturns

theorem State.Sees.before_eq (h : st.Sees text w) :
    ((0 : String.Pos.Raw).extract text st.start).toList = w.before := by
  have htext : text = String.ofList ([] ++ w.before ++ (w.element ++ w.rest)) := by
    rw [List.nil_append, ← List.append_assoc, ← h.text_eq, String.ofList_toList]
  have hextract := String.extract_of_valid [] w.before (w.element ++ w.rest)
  rw [← htext, String.utf8Len_nil, Nat.zero_add, ← h.start_eq] at hextract
  rw [show (0 : String.Pos.Raw) = ⟨0⟩ from rfl, hextract, String.toList_ofList]

theorem length_le_utf8Len (cs : List Char) : cs.length ≤ String.utf8Len cs := by
  induction cs with
  | nil => rfl
  | cons c cs ih =>
    have hpos := c.utf8Size_pos
    rw [List.length_cons, String.utf8Len_cons]
    omega

theorem State.Sees.inBounds (h : st.Sees text w) (hsize : text.utf8ByteSize ≤ 2 ^ 63 - 1) :
    st.InBounds text w.element := by
  have hoffset := h.offset_isValid.le_utf8ByteSize
  have hbefore := h.before_eq
  -- There are no more newlines than bytes, so the line is small enough if the offset is.
  have hline : st.line ≤ 1 + text.utf8ByteSize := by
    have hcount : w.before.count '\n' ≤ w.before.length := List.count_le_length
    have hlen := length_le_utf8Len w.before
    have hstart := h.start_isValid.le_utf8ByteSize
    rw [h.start_eq] at hstart
    rw [h.line_eq, lineAfter]
    dsimp only at hstart
    omega
  exact {
    start_le_offset := h.start_le_offset
    offset_le_size := hoffset
    start_isValid := h.start_isValid
    offset_isValid := h.offset_isValid
    slice_eq := h.lexeme_eq
    line_eq := by rw [hbefore, h.line_eq]
    line_eq_of_ready := by
      intro hphase
      have helement : w.element = [] := by simpa [hphase, Phase.Covers] using h.covers
      have heq : st.offset = st.start := by
        rw [h.offset_eq, h.start_eq, helement, List.append_nil]
      rw [heq, hbefore, h.line_eq]
    offset_lt := by omega
    line_lt := by omega }

theorem offset_after_le (options : Options) (text : String) (log : Log) {i j : Nat} (hij : i ≤ j) :
    (State.after options text log i).offset.byteIdx
      ≤ (State.after options text log j).offset.byteIdx := by
  induction j, hij using Nat.le_induction with
  | base => rfl
  | succ j _ ih =>
    obtain ⟨w, h, -⟩ := exists_sees_after options text log j
    rw [State.after_succ, h.offset_step]
    omega

-- A scan is its moves up to the first state that has halted.
theorem exists_iterate_eq_run (options : Options) (text : String) (st : State) :
    ∃ n, (step options text)^[n] st = run options text st
      ∧ ((step options text)^[n] st).halted text = true
      ∧ ∀ k < n, ((step options text)^[k] st).halted text = false := by
  induction st using run.induct options text with
  | case1 st hhalted =>
    refine ⟨0, ?_, hhalted, by simp⟩
    rw [run, if_pos hhalted]
    rfl
  | case2 st hhalted ih =>
    obtain ⟨n, hrun, hend, hbefore⟩ := ih
    refine ⟨n + 1, ?_, hend, ?_⟩
    · rw [run, if_neg hhalted, ← hrun]
      rfl
    · intro k hk
      cases k with
      | zero => simpa using hhalted
      | succ k => exact hbefore k (by omega)

/-- **Reachable states.** In a text below 2^63 bytes, every state that a scan reaches stands in
bounds, with the characters read since the element began as its slice; a move raises the offset by
the width of the character it reads; every turn raises the offset; and the scan halts after at most
as many turns as the text has characters. -/
theorem reachable_inBounds (options : Options) (text : String) (log : Log)
    (hsize : text.utf8ByteSize ≤ 2 ^ 63 - 1) :
    (∀ n, (State.after options text log n).InBounds text (elementAfter options text log n))
      ∧ (∀ n, (State.after options text log (n + 1)).offset.byteIdx =
          (State.after options text log n).offset.byteIdx
            + ((State.after options text log n).reads? options text).elim 0 Char.utf8Size)
      ∧ (∀ i j, i < j → (State.after options text log i).BeginsTurn text →
          (State.after options text log i).offset < (State.after options text log j).offset)
      ∧ ∃ n, State.after options text log n = run options text (.initial log)
          ∧ (State.after options text log n).halted text = true
          ∧ (∀ k < n, (State.after options text log k).halted text = false)
          ∧ (turns options text log n).length ≤ text.length := by
  refine ⟨fun n => ?_, fun n => ?_, fun i j hij hturn => ?_, ?_⟩
  · obtain ⟨w, h, helement, -⟩ := exists_sees_after options text log n
    rw [← helement]
    exact h.inBounds hsize
  · obtain ⟨w, h, -⟩ := exists_sees_after options text log n
    rw [State.after_succ, h.offset_step]
  · obtain ⟨w, h, -⟩ := exists_sees_after options text log i
    obtain ⟨c, hreads⟩ := hturn.exists_reads? options
    have hpos := c.utf8Size_pos
    have hstep := h.offset_step options
    have hle := offset_after_le options text log (Nat.succ_le_of_lt hij)
    rw [Nat.succ_eq_add_one, State.after_succ, hstep, hreads, Option.elim_some] at hle
    rw [String.Pos.Raw.lt_iff]
    omega
  · obtain ⟨n, hrun, hhalted, hbefore⟩ := exists_iterate_eq_run options text (.initial log)
    refine ⟨n, hrun, hhalted, hbefore, ?_⟩
    obtain ⟨w, h, -, hturns⟩ := exists_sees_after options text log n
    have hlength := congrArg List.length h.text_eq
    rw [String.length_toList, List.length_append, List.length_append] at hlength
    omega

-- Five moves into this text the scan is inside a comment and has read two letters of two bytes
-- each.
theorem reachable_inBounds_comment :
    "é//ß\n".utf8ByteSize ≤ 2 ^ 63 - 1
      ∧ (State.after {} "é//ß\n" .empty 5).InBounds "é//ß\n" ['/', '/', 'ß']
      ∧ (State.after {} "é//ß\n" .empty 5).offset.byteIdx = 6 := by
  have hsize : "é//ß\n".utf8ByteSize ≤ 2 ^ 63 - 1 := by decide
  have helement : elementAfter {} "é//ß\n" .empty 5 = ['/', '/', 'ß'] := by decide +kernel
  refine ⟨hsize, ?_, by decide +kernel⟩
  rw [← helement]
  exact (reachable_inBounds {} "é//ß\n" .empty hsize).1 5

end LoxLexer.Scan
