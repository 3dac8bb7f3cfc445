import LoxLexer.Proofs.Scan.Moves

/-!
# A scan finds what the elements of its text mean

The machine of offsets and the cut of a text into elements agree: `scan` returns the tokens of the
one cut there is, and adds its diagnostics to the log (`scan_of_cut`). What a scan writes out on its
way is the trace of these tokens, or nothing (`scan_traced`).
-/

namespace LoxLexer

open Element

/-! ## 1. Tokens and diagnostics -/

theorem scan_outlook (options : Options) (text : String) (log : Log) :
    (scan options text log).tokens = Element.tokens [] (ofChars text.toList)
      ∧ (scan options text log).log.toList =
        log.toList ++ Element.diagnostics [] (ofChars text.toList) := by
  obtain ⟨w, hsees, hhalted, houtlook⟩ :=
    (Scan.State.sees_initial text log).run options
  obtain ⟨hphase, _, hrest⟩ := hsees.rest_of_halted hhalted
  -- Nothing is to come at the end, and everything at the beginning.
  have hupcoming : w.upcoming .ready = [] := by rw [Scan.Window.upcoming, hrest, ofChars_nil]
  rw [Scan.State.outlook, hphase, hupcoming, Scan.State.outlook, Findings.mk.injEq] at houtlook
  obtain ⟨htokens, hdiagnostics⟩ := houtlook
  constructor
  · rw [scan, Array.toList_push, hsees.line_eq]
    exact htokens
  · rw [Element.diagnostics, List.append_nil] at hdiagnostics
    exact hdiagnostics

theorem scan_tokens (options : Options) (text : String) (log : Log) :
    (scan options text log).tokens = Element.tokens [] (ofChars text.toList) :=
  (scan_outlook options text log).1

theorem scan_log (options : Options) (text : String) (log : Log) :
    (scan options text log).log.toList =
      log.toList ++ Element.diagnostics [] (ofChars text.toList) :=
  (scan_outlook options text log).2

theorem scan_log_empty (options : Options) (text : String) :
    (scan options text .empty).log.toList = reports text.toList := by
  rw [scan_log, diagnostics_eq_collect]
  rfl

/-- **Scanning is cutting.** A text has exactly one cut into elements, and a scan of the text
returns the tokens of that cut, closed by the end of the text, and reports its diagnostics. -/
theorem scan_of_cut (options : Options) (text : String) (log : Log) :
    ∃ es, Cut es text.toList ∧ (∀ es', Cut es' text.toList → es' = es)
      ∧ (scan options text log).tokens = Element.tokens [] es
      ∧ (scan options text log).log.toList = log.toList ++ Element.diagnostics [] es :=
  ⟨ofChars text.toList, cut_ofChars text.toList, fun _ h => cut_iff.mp h,
    scan_tokens options text log, scan_log options text log⟩

/-! ## 2. The trace -/

namespace Scan

/-- What was written out are the tokens recorded, if tokens are traced at all. -/
def State.Traces (options : Options) (st : State) : Prop :=
  st.traced.toList = if options.trace then st.tokens.toList.map Token.trace else []

variable {options : Options} {text : String} {st : State}

theorem State.Traces.record (h : st.Traces options) (token : Token) :
    (st.record options token).Traces options := by
  unfold State.Traces at h ⊢
  by_cases htrace : options.trace = true
  · rw [if_pos htrace] at h
    simp [State.record, htrace, h]
  · rw [if_neg htrace] at h
    simp [State.record, htrace, h]

-- Only the move that records a token changes the tokens or the trace.
theorem classify_tokens_traced (text : String) (st : State) (c : Char) :
    (classify text st c).tokens = st.tokens ∧ (classify text st c).traced = st.traced := by
  unfold classify
  split
  · exact ⟨rfl, rfl⟩
  · split <;> exact ⟨rfl, rfl⟩
  · split <;> exact ⟨rfl, rfl⟩
  all_goals exact ⟨rfl, rfl⟩

theorem State.Traces.step (h : st.Traces options) : (step options text st).Traces options := by
  unfold Scan.step
  split
  · split <;> exact h
  · obtain ⟨htokens, htraced⟩ := classify_tokens_traced text st ‹_›
    rw [State.Traces, htokens, htraced]
    exact h
  · exact h.record _
  · split
    · split <;> exact h
    · exact h

theorem State.Traces.run (text : String) (h : st.Traces options) :
    (run options text st).Traces options := by
  induction st using Scan.run.induct options text with
  | case1 st hhalted =>
    rw [Scan.run, if_pos hhalted]
    exact h
  | case2 st hhalted ih =>
    rw [Scan.run, if_neg hhalted]
    exact ih h.step

end Scan

/-- **The trace.** A scan writes out every token but the end of the text, if tokens are traced. -/
theorem scan_traced (options : Options) (text : String) (log : Log) :
    (scan options text log).traced =
      if options.trace then (scan options text log).tokens.dropLast.map Token.trace else [] := by
  have hinitial : (Scan.State.initial log).Traces options := by
    rw [Scan.State.Traces]
    exact (ite_self _).symm
  have h := hinitial.run text
  rw [Scan.State.Traces] at h
  rw [scan, h, Array.toList_push, List.dropLast_concat]

end LoxLexer
