import LoxLexer.Proofs.Element.Joining
import LoxLexer.Proofs.Scan.Window

/-!
# Moves of a scan

`Sees.step` says all that a move does: it reads the next character, or looks without reading, or
closes the element (`Window.Move`), and the state after it stands for the window after it. No move
changes what the scan will have found in the end (`State.outlook`): what was found so far, and what
the elements that are still to come mean. `Sees.run` says the same of a whole scan.
-/

namespace LoxLexer.Scan

open Element

variable {options : Options} {text : String} {st next : State} {w : Window} {c : Char}
variable {tail : List Char} {phase : Phase}

/-! ## 1. What is to come -/

/-- The elements from the one being read on. -/
def Window.upcoming (w : Window) : Phase → List Element
  | .ready => ofChars w.rest
  | .opened c => ofChars (c :: w.rest)
  | .closed p => .punctuator p :: ofChars w.rest
  | .comment => .comment (w.element.drop 2 ++ Line.head w.rest) :: ofChars (Line.rest w.rest)

/-- What was found so far, and what the elements to come mean. -/
def State.outlook (st : State) (w : Window) : Findings :=
  { tokens := st.tokens.toList ++ Element.tokens w.before (w.upcoming st.phase)
    diagnostics := st.log.toList ++ Element.diagnostics w.before (w.upcoming st.phase) }

/-- A state that a move leads to, compared with the one before it. -/
def State.Follows (text : String) (st : State) (w : Window) (next : State) : Prop :=
  ∃ w', w.Move next.phase w' ∧ next.Sees text w' ∧ next.outlook w' = st.outlook w

/-! ## 2. Reading, looking and closing -/

namespace State.Sees

theorem follows_take (h : st.Sees text w) (hrest : w.rest = c :: tail) (hphase : phase ≠ .ready)
    (hcovers : phase.Covers (w.element ++ [c]))
    (hupcoming : (w.read c tail).upcoming phase = w.upcoming st.phase) :
    st.Follows text w (st.take c phase) := by
  refine ⟨w.read c tail, .read hrest hphase, h.take hrest hcovers, ?_⟩
  simp only [State.outlook, ← hupcoming]
  rfl

theorem follows_turn (h : st.Sees text w) (hphase : phase ≠ .ready)
    (hcovers : phase.Covers w.element) (hupcoming : w.upcoming phase = w.upcoming st.phase) :
    st.Follows text w { st with phase } := by
  refine ⟨w, .stay hphase, h.turn hcovers, ?_⟩
  simp only [State.outlook, ← hupcoming]

-- Closing an element adds what it means to what was found.
theorem follows_close {e : Element} (h : next.Sees text w.close) (hphase : next.phase = .ready)
    (hchars : e.chars = w.element) (hupcoming : w.upcoming st.phase = e :: ofChars w.rest)
    (htokens : next.tokens.toList = st.tokens.toList ++ (e.token? w.before).toList)
    (hlog : next.log.toList = st.log.toList ++ (e.diagnostic? w.before).toList) :
    st.Follows text w next := by
  refine ⟨w.close, hphase ▸ .close, h, ?_⟩
  simp only [State.outlook, hphase, hupcoming, htokens, hlog, Element.tokens, Element.diagnostics,
    List.append_assoc, hchars]
  rfl

/-! ## 3. One move -/

theorem follows_ready (h : st.Sees text w) (hphase : st.phase = .ready) :
    st.Follows text w (step options text st) := by
  have helement : w.element = [] := by simpa [hphase, Phase.Covers] using h.covers
  simp only [step, hphase, h.peek?_eq]
  rcases hrest : w.rest with _ | ⟨c, tail⟩
  · have hmove : w.Move .ready w.close := .close
    have hclose : w.close = w := by
      obtain ⟨before, element, rest⟩ := w
      obtain rfl : element = [] := helement
      simp [Window.close]
    rw [hclose, ← hphase] at hmove
    exact ⟨w, hmove, h, rfl⟩
  · apply h.follows_take hrest (by simp)
    · simp [helement, Phase.Covers]
    · simp [hphase, Window.upcoming, Window.read, hrest]

theorem element_of_opened (h : st.Sees text w) (hphase : st.phase = .opened c) :
    w.element = [c] := by
  simpa [hphase, Phase.Covers] using h.covers

theorem upcoming_of_opened {e : Element} (hphase : st.phase = .opened c) (hchars : e.chars = [c])
    (hfits : e.Fits w.rest) : w.upcoming st.phase = e :: ofChars w.rest := by
  have hcut := ofChars_of_fits hfits
  rw [hchars, List.singleton_append] at hcut
  rw [hphase, Window.upcoming, hcut]

-- A punctuator of one character that fits is recorded next.
theorem follows_single {p : Punctuator} (h : st.Sees text w) (hphase : st.phase = .opened c)
    (hspelling : p.spelling.toList = [c]) (hfits : (punctuator p).Fits w.rest) :
    st.Follows text w { st with phase := .closed p } := by
  apply h.follows_turn (by simp)
  · rw [h.element_of_opened hphase, Phase.Covers, hspelling]
  · rw [upcoming_of_opened (e := punctuator p) hphase hspelling hfits, Window.upcoming]

-- Another element of one character that fits is closed at once.
theorem follows_close_opened {e : Element} (h : st.Sees text w) (hphase : st.phase = .opened c)
    (hchars : e.chars = [c]) (hfits : e.Fits w.rest) (hnext : next.Sees text w.close)
    (hready : next.phase = .ready)
    (htokens : next.tokens.toList = st.tokens.toList ++ (e.token? w.before).toList)
    (hlog : next.log.toList = st.log.toList ++ (e.diagnostic? w.before).toList) :
    st.Follows text w next := by
  have helement : w.element = [c] := h.element_of_opened hphase
  apply follows_close hnext hready (hchars.trans helement.symm) _ htokens hlog
  exact upcoming_of_opened hphase hchars hfits

theorem follows_opened (h : st.Sees text w) (hphase : st.phase = .opened c) :
    st.Follows text w (step options text st) := by
  have helement : w.element = [c] := h.element_of_opened hphase
  have hlead := Lead.describes_ofChar c
  simp only [step, hphase, classify, h.peek?_eq]
  -- A class takes one more character, turns to the phase after the element, or ends the element.
  cases hc : Lead.ofChar c with
  | alone p =>
    rw [hc] at hlead
    exact h.follows_single hphase hlead.1 (.inl hlead.2)
  | pairable single pair =>
    rw [hc] at hlead
    obtain ⟨hsingle, hgrows, hpair, hgrown⟩ := hlead
    dsimp only
    by_cases heq : w.rest.head? = some '='
    · rw [if_pos heq]
      obtain ⟨tail, hrest⟩ := List.head?_eq_some_iff.mp heq
      have hfits : (punctuator pair).Fits tail := .inl hgrown
      apply h.follows_take hrest (by simp)
      · rw [helement, Phase.Covers, hpair, List.singleton_append]
      · simpa [hphase, Window.upcoming, Window.read, chars, hpair, hrest] using
          (ofChars_of_fits hfits).symm
    · rw [if_neg heq]
      exact h.follows_single hphase hsingle (.inr (hgrows ▸ heq))
  | slash =>
    rw [hc] at hlead
    obtain rfl : c = '/' := hlead
    dsimp only
    by_cases heq : w.rest.head? = some '/'
    · rw [if_pos heq]
      obtain ⟨tail, hrest⟩ := List.head?_eq_some_iff.mp heq
      apply h.follows_take hrest (by simp)
      · exact ⟨[], by rw [helement, List.singleton_append], by simp⟩
      · rw [hphase, Window.upcoming, Window.upcoming, hrest]
        simpa [Window.read, helement, chars, Punctuator.spelling] using
          (ofChars_slash_slash tail).symm
    · rw [if_neg heq]
      exact h.follows_single hphase rfl (.inr heq)
  | blank =>
    rw [hc] at hlead
    have hline : '\n' ∉ w.element := by
      rw [helement]
      rcases hlead with rfl | rfl | rfl <;> decide
    apply h.follows_close_opened (e := blank c) hphase rfl hlead (h.finish hline) rfl
    · simp [token?, State.finish]
    · simp [diagnostic?, State.finish]
  | newline =>
    rw [hc] at hlead
    obtain rfl : c = '\n' := hlead
    apply h.follows_close_opened (e := newline) hphase rfl trivial (h.finish_newline helement) rfl
    · simp [token?, State.finish]
    · simp [diagnostic?, State.finish]
  | unexpected =>
    rw [hc] at hlead
    have hline : '\n' ∉ w.element := by
      rw [helement, List.mem_singleton]
      intro hnewline
      exact hlead (hnewline ▸ by decide)
    have hnext := (h.report (.unexpectedCharacter c)).finish hline
    apply h.follows_close_opened (e := unexpected c) hphase rfl hlead hnext rfl
    · simp [token?, State.finish, State.report]
    · have hdiagnostic : (unexpected c).diagnostic? w.before =
          some { line := st.line, message := (LexicalError.unexpectedCharacter c).message } := by
        rw [h.line_eq]
        rfl
      simp [hdiagnostic, State.finish, State.report]

theorem follows_closed {p : Punctuator} (h : st.Sees text w) (hphase : st.phase = .closed p) :
    st.Follows text w (step options text st) := by
  have helement : w.element = p.spelling.toList := by simpa [hphase, Phase.Covers] using h.covers
  have hline : '\n' ∉ w.element := by
    rw [helement]
    exact p.newline_notMem_spelling
  have hlexeme : st.lexeme text = p.spelling := by
    rw [h.lexeme_eq, helement, String.ofList_toList]
  simp only [step, hphase]
  refine follows_close (e := punctuator p) ((h.record options _).finish hline) rfl helement.symm
    (by rw [hphase]; rfl) ?_ ?_
  · simp [token?, Token.ofPunctuator, State.finish, State.record, hlexeme, h.line_eq]
  · simp [diagnostic?, State.finish, State.record]

theorem follows_comment (h : st.Sees text w) (hphase : st.phase = .comment) :
    st.Follows text w (step options text st) := by
  obtain ⟨body, helement, hbody⟩ : ∃ body, w.element = '/' :: '/' :: body ∧ '\n' ∉ body := by
    simpa [hphase, Phase.Covers] using h.covers
  -- The comment ends in two ways, at the end of the text and before a newline.
  have hfinish : Line.Ends w.rest → st.Follows text w st.finish := by
    intro hends
    refine follows_close (e := comment body) (h.finish (by simp [helement, hbody])) rfl
      helement.symm ?_ ?_ ?_
    · simp [hphase, Window.upcoming, helement, Line.head_of_ends hends, Line.rest_of_ends hends]
    · simp [token?, State.finish]
    · simp [diagnostic?, State.finish]
  simp only [step, hphase, h.peek?_eq]
  rcases hrest : w.rest with _ | ⟨c, tail⟩
  · exact hfinish (.inl hrest)
  · by_cases hc : c = '\n'
    · simp only [List.head?_cons, if_pos hc]
      exact hfinish (.inr (by simp [hrest, hc]))
    · have hline : '\n' ∉ [c] := by simpa using Ne.symm hc
      have hhead : Line.head (c :: tail) = c :: Line.head tail := Line.head_append hline tail
      have htail : Line.rest (c :: tail) = Line.rest tail := Line.rest_append hline tail
      simp only [List.head?_cons, if_neg hc]
      apply h.follows_take hrest (by simp)
      · exact ⟨body ++ [c], by simp [helement], by simp [hbody, Ne.symm hc]⟩
      · simp [hphase, Window.upcoming, Window.read, hrest, helement, hhead, htail]

/-- **One move.** Every move is one of those of `Window.Move`, and none changes the outlook. -/
theorem step (options : Options) (h : st.Sees text w) :
    st.Follows text w (Scan.step options text st) := by
  cases hphase : st.phase with
  | ready => exact h.follows_ready hphase
  | opened c => exact h.follows_opened hphase
  | closed p => exact h.follows_closed hphase
  | comment => exact h.follows_comment hphase

/-! ## 4. Whole scans -/

-- A scan that has halted has closed its last element and read the whole text.
theorem rest_of_halted (h : st.Sees text w) (hhalted : st.halted text = true) :
    st.phase = .ready ∧ w.element = [] ∧ w.rest = [] := by
  unfold State.halted at hhalted
  split at hhalted
  · rename_i hphase
    have helement : w.element = [] := by simpa [hphase, Phase.Covers] using h.covers
    rw [h.peek?_eq, Option.isNone_iff_eq_none, List.head?_eq_none_iff] at hhalted
    exact ⟨hphase, helement, hhalted⟩
  · cases hhalted

/-- **A whole scan.** It halts with what was in sight from the start. -/
theorem run (options : Options) (h : st.Sees text w) :
    ∃ w', (Scan.run options text st).Sees text w' ∧ (Scan.run options text st).halted text = true
      ∧ (Scan.run options text st).outlook w' = st.outlook w := by
  induction st using Scan.run.induct options text generalizing w with
  | case1 st hhalted =>
    rw [Scan.run, if_pos hhalted]
    exact ⟨w, h, hhalted, rfl⟩
  | case2 st hhalted ih =>
    obtain ⟨w₁, _, hsees, houtlook⟩ := h.step options
    rw [Scan.run, if_neg hhalted, ← houtlook]
    exact ih hsees

end State.Sees

end LoxLexer.Scan
