import LoxLexer.Layout
import LoxLexer.Proofs.Element.Lines
import LoxLexer.Proofs.Scan.Append

/-!
# Laid out tokens are scanned again

The token lists that scans return are exactly the well-formed ones, and every one of them is found
in the text that it is laid out as (`findings_render`). Both directions go token by token, so
well-formed lists are first described in that way (`WellFormedFrom`).
-/

namespace LoxLexer.Layout

open Element

variable {line : Nat} {tokens body : List Token} {t : Token} {before : List Char}

/-! ## 1. Well-formed lists, token by token -/

/-- A list that is well formed and has nothing above some line. -/
inductive WellFormedFrom : Nat → List Token → Prop
  | last {line last : Nat} : line ≤ last → WellFormedFrom line [.endOfText last]
  | cons {line : Nat} {t : Token} {rest : List Token} :
    Spelled t → line ≤ t.line → WellFormedFrom t.line rest → WellFormedFrom line (t :: rest)

namespace WellFormedFrom

theorem mono {upper : Nat} (h : WellFormedFrom line tokens) (hle : upper ≤ line) :
    WellFormedFrom upper tokens := by
  cases h with
  | last hlast => exact .last (hle.trans hlast)
  | cons hspelled hline hrest => exact .cons hspelled (hle.trans hline) hrest

theorem exists_body (h : WellFormedFrom line tokens) :
    ∃ body last, tokens = body ++ [.endOfText last] ∧ ∀ t ∈ body, Spelled t := by
  induction h with
  | @last _ last _ => exact ⟨[], last, rfl, by simp⟩
  | @cons _ t _ hspelled _ _ ih =>
    obtain ⟨body, last, rfl, hbody⟩ := ih
    refine ⟨t :: body, last, rfl, ?_⟩
    intro u hu
    rcases List.mem_cons.mp hu with rfl | hu
    · exact hspelled
    · exact hbody u hu

theorem le_line (h : WellFormedFrom line tokens) : ∀ t ∈ tokens, line ≤ t.line := by
  induction h with
  | last hlast =>
    intro u hu
    rw [List.mem_singleton.mp hu]
    exact hlast
  | cons _ hline _ ih =>
    intro u hu
    rcases List.mem_cons.mp hu with rfl | hu
    · exact hline
    · exact hline.trans (ih u hu)

theorem pairwise (h : WellFormedFrom line tokens) :
    tokens.Pairwise fun a b => a.line ≤ b.line := by
  induction h with
  | last _ => exact List.pairwise_singleton _ _
  | cons _ _ hrest ih => exact List.pairwise_cons.mpr ⟨hrest.le_line, ih⟩

end WellFormedFrom

theorem wellFormedFrom_of_body {last : Nat} (hbody : ∀ t ∈ body, Spelled t)
    (hlines : ∀ t ∈ body ++ [Token.endOfText last], line ≤ t.line)
    (hpairwise : (body ++ [Token.endOfText last]).Pairwise fun a b => a.line ≤ b.line) :
    WellFormedFrom line (body ++ [Token.endOfText last]) := by
  induction body generalizing line with
  | nil => exact .last (hlines (Token.endOfText last) (by simp))
  | cons t body ih =>
    rw [List.cons_append, List.pairwise_cons] at hpairwise
    apply WellFormedFrom.cons (hbody t List.mem_cons_self) (hlines t List.mem_cons_self)
    exact ih (fun u hu => hbody u (List.mem_cons_of_mem t hu)) hpairwise.1 hpairwise.2

theorem wellFormed_iff : WellFormed tokens ↔ WellFormedFrom 1 tokens := by
  constructor
  · rintro ⟨⟨body, last, rfl, hbody⟩, hlines, hpairwise⟩
    exact wellFormedFrom_of_body hbody hlines hpairwise
  · intro h
    exact ⟨h.exists_body, h.le_line, h.pairwise⟩

/-! ## 2. Scans return well-formed lists -/

-- A punctuator is spelled as its kind is, and no element goes back to a line above.
theorem wellFormedFrom_tokens (before : List Char) (es : List Element) :
    WellFormedFrom (lineAfter before) (Element.tokens before es) := by
  induction es generalizing before with
  | nil => exact .last le_rfl
  | cons e es ih =>
    have hle : lineAfter before ≤ lineAfter (before ++ e.chars) := by
      rw [lineAfter, lineAfter, List.count_append]
      omega
    have hlater : WellFormedFrom (lineAfter before) (Element.tokens (before ++ e.chars) es) :=
      (ih _).mono hle
    cases e with
    | punctuator p => exact .cons ⟨p, rfl, rfl, rfl⟩ le_rfl hlater
    | _ => exact hlater

/-! ## 3. The elements of laid out tokens -/

theorem Spelled.exists_eq (h : Spelled t) :
    ∃ p line, t = .ofPunctuator p p.spelling line := by
  obtain ⟨kind, lexeme, literal, line⟩ := t
  obtain ⟨p, rfl, rfl, rfl⟩ := h
  exact ⟨p, line, rfl⟩

/-- The elements of the text of one token. -/
def elementsOf (line : Nat) (t : Token) : List Element :=
  List.replicate (t.line - line) .newline
    ++ match t.kind with
      | .punctuator p => [.blank ' ', .punctuator p]
      | .eof => []

/-- The elements of the text that tokens are laid out as from a line on. -/
def elements (line : Nat) : List Token → List Element
  | [] => []
  | t :: rest => elementsOf line t ++ elements t.line rest

-- What is laid out begins with a newline or a blank, so that no punctuator before it grows.
theorem head?_renderFrom (line : Nat) (tokens : List Token) {c : Char}
    (h : (renderFrom line tokens).toList.head? = some c) : c = '\n' ∨ c = ' ' := by
  induction tokens generalizing line with
  | nil => cases h
  | cons t rest ih =>
    rw [renderFrom, renderToken] at h
    cases hgap : t.line - line with
    | succ gap =>
      left
      simpa [hgap, List.replicate_succ] using h.symm
    | zero =>
      by_cases heof : t.kind = .eof
      · exact ih t.line (by simpa [hgap, heof] using h)
      · right
        simpa [hgap, heof] using h.symm

theorem fits_renderFrom (p : Punctuator) (line : Nat) (tokens : List Token) :
    (punctuator p).Fits (renderFrom line tokens).toList := by
  have hhead : ∀ c ∈ ['=', '/'], (renderFrom line tokens).toList.head? ≠ some c := by
    intro c hc h
    rcases head?_renderFrom line tokens h with rfl | rfl
    all_goals simp at hc
  rcases p.growsWith?_cases with hnone | hgrows | hgrows
  · exact .inl hnone
  · exact .inr (hgrows ▸ hhead '=' (by decide))
  · exact .inr (hgrows ▸ hhead '/' (by decide))

theorem cut_newlines (gap : Nat) {es : List Element} {cs : List Char} (h : Cut es cs) :
    Cut (List.replicate gap newline ++ es) (List.replicate gap '\n' ++ cs) := by
  induction gap with
  | zero => exact h
  | succ gap ih => exact .cons (e := newline) trivial ih

/-- **The cut of laid out tokens.** The blank before each punctuator keeps it apart from the one
before. -/
theorem cut_renderFrom (h : WellFormedFrom line tokens) :
    Cut (elements line tokens) (renderFrom line tokens).toList := by
  induction h with
  | @last line last _ =>
    simpa [elements, elementsOf, renderFrom, renderToken, Token.endOfText] using
      cut_newlines (last - line) .nil
  | @cons line t rest hspelled _ _ ih =>
    obtain ⟨p, hkind, hlexeme, -⟩ := hspelled
    have htext : (renderFrom line (t :: rest)).toList = List.replicate (t.line - line) '\n'
        ++ ((blank ' ').chars ++ ((punctuator p).chars ++ (renderFrom t.line rest).toList)) := by
      simp [renderFrom, renderToken, hkind, hlexeme, chars]
    have helements : elements line (t :: rest) = List.replicate (t.line - line) newline
        ++ (blank ' ' :: punctuator p :: elements t.line rest) := by
      simp [elements, elementsOf, hkind]
    rw [htext, helements]
    exact cut_newlines _ (.cons (.inl rfl) (.cons (fits_renderFrom p t.line rest) ih))

/-! ## 4. What laid out tokens mean -/

theorem text_newlines (gap : Nat) :
    text (List.replicate gap newline) = List.replicate gap '\n' := by
  induction gap with
  | zero => rfl
  | succ gap ih =>
    rw [List.replicate_succ, text_cons, ih]
    rfl

theorem collect_newlines {α : Type} {f : List Char → Element → Option α} (hf : Skips f)
    (before : List Char) (gap : Nat) : collect f before (List.replicate gap newline) = [] := by
  apply collect_of_separates hf
  intro e he
  rw [List.eq_of_mem_replicate he]
  trivial

-- The newlines before a token bring the line that it names.
theorem lineAfter_newlines (hle : lineAfter before ≤ line) :
    lineAfter (before ++ List.replicate (line - lineAfter before) '\n') = line := by
  have hadd : lineAfter (before ++ List.replicate (line - lineAfter before) '\n') =
      lineAfter before + (line - lineAfter before) := by
    rw [lineAfter, List.count_append, List.count_replicate_self, ← Nat.add_assoc]
    rfl
  omega

theorem lineAfter_elementsOf (t : Token) (hle : lineAfter before ≤ t.line) :
    lineAfter (before ++ text (elementsOf (lineAfter before) t)) = t.line := by
  rw [elementsOf, text_append, text_newlines, ← List.append_assoc]
  cases t.kind with
  | punctuator p =>
    have hline : '\n' ∉ text [blank ' ', punctuator p] := by cases p <;> decide
    exact (lineAfter_append_of_notMem _ hline).trans (lineAfter_newlines hle)
  | eof => rw [text_nil, List.append_nil, lineAfter_newlines hle]

theorem collect_token?_elementsOf (hspelled : Spelled t) (hle : lineAfter before ≤ t.line) :
    collect token? before (elementsOf (lineAfter before) t) = [t] := by
  obtain ⟨p, line, rfl⟩ := hspelled.exists_eq
  have hle : lineAfter before ≤ line := hle
  have hblank : '\n' ∉ (blank ' ').chars := by decide
  show collect token? before (List.replicate (line - lineAfter before) newline
    ++ [blank ' ', punctuator p]) = [.ofPunctuator p p.spelling line]
  rw [collect_append, collect_newlines skips_token?, text_newlines, collect, collect,
    skips_token? _ (blank ' ') trivial, token?, lineAfter_append_of_notMem _ hblank,
    lineAfter_newlines hle]
  rfl

theorem tokens_append (before : List Char) (es fs : List Element) :
    Element.tokens before (es ++ fs) =
      collect token? before es ++ Element.tokens (before ++ text es) fs := by
  rw [tokens_eq_collect, tokens_eq_collect, collect_append, text_append, List.append_assoc,
    List.append_assoc]

/-- **The tokens of laid out tokens** are these tokens again. -/
theorem tokens_elements (h : WellFormedFrom line tokens) (hline : lineAfter before = line) :
    Element.tokens before (elements line tokens) = tokens := by
  induction h generalizing before with
  | @last line last hlast =>
    subst hline
    rw [elements, elements, tokens_append, Element.tokens,
      lineAfter_elementsOf (.endOfText last) hlast]
    show collect token? before (List.replicate (last - lineAfter before) newline ++ []) ++ _ = _
    rw [List.append_nil, collect_newlines skips_token?, List.nil_append]
    rfl
  | @cons line t rest hspelled hle _ ih =>
    subst hline
    rw [elements, tokens_append, collect_token?_elementsOf hspelled hle,
      ih (lineAfter_elementsOf t hle), List.singleton_append]

-- Only punctuators, newlines and blanks are laid out.
theorem diagnostic?_of_mem_elements {e : Element} (h : e ∈ elements line tokens)
    (before : List Char) : e.diagnostic? before = none := by
  induction tokens generalizing line with
  | nil => cases h
  | cons t rest ih =>
    rw [elements, elementsOf, List.mem_append, List.mem_append] at h
    rcases h with (hnewline | htoken) | hrest
    · rw [List.eq_of_mem_replicate hnewline]
      rfl
    · cases hkind : t.kind with
      | punctuator p =>
        rw [hkind, List.mem_pair] at htoken
        rcases htoken with rfl | rfl <;> rfl
      | eof =>
        rw [hkind] at htoken
        cases htoken
    · exact ih hrest

theorem diagnostics_elements (before : List Char) (line : Nat) (tokens : List Token) :
    Element.diagnostics before (elements line tokens) = [] := by
  rw [diagnostics_eq_collect, List.eq_nil_iff_forall_not_mem]
  intro d hd
  obtain ⟨init, e, rest, hsplit, he⟩ := exists_of_mem_collect hd
  have hmem : e ∈ elements line tokens := by simp [hsplit]
  rw [diagnostic?_of_mem_elements hmem] at he
  cases he

/-! ## 5. Scanning what is laid out -/

theorem wellFormed_findings (options : Options) (source : String) :
    WellFormed (findings options source).tokens := by
  rw [wellFormed_iff, findings, scan_tokens]
  exact wellFormedFrom_tokens [] _

theorem findings_of_wellFormed (options : Options) (h : WellFormed tokens) :
    findings options (render tokens) = { tokens, diagnostics := [] } := by
  have hfrom : WellFormedFrom 1 tokens := wellFormed_iff.mp h
  have hcut : elements 1 tokens = ofChars (render tokens).toList :=
    cut_iff.mp (cut_renderFrom hfrom)
  rw [findings, scan_tokens, scan_log, ← hcut, tokens_elements hfrom rfl, diagnostics_elements]
  rfl

/-- **Laying out and scanning.** (1) A token list is what the scan of some text returns exactly if it
is well formed. (2) A well-formed list is what the scan of its layout returns, and nothing is
reported. (3) So the tokens of any text, laid out and scanned again, are the same tokens without a
report, and laid out once more they are the same text. -/
theorem findings_render (options : Options) :
    (∀ tokens, (∃ source, (findings options source).tokens = tokens) ↔ WellFormed tokens)
      ∧ (∀ tokens, WellFormed tokens →
          findings options (render tokens) = { tokens, diagnostics := [] })
      ∧ ∀ source,
          findings options (render (findings options source).tokens) =
              { tokens := (findings options source).tokens, diagnostics := [] }
            ∧ render (findings options (render (findings options source).tokens)).tokens =
              render (findings options source).tokens := by
  refine ⟨fun tokens => ⟨?_, ?_⟩, fun tokens h => findings_of_wellFormed options h,
    fun source => ?_⟩
  · rintro ⟨source, rfl⟩
    exact wellFormed_findings options source
  · intro h
    exact ⟨render tokens, by rw [findings_of_wellFormed options h]⟩
  · have hagain := findings_of_wellFormed options (wellFormed_findings options source)
    exact ⟨hagain, by rw [hagain]⟩

-- Slashes that stand side by side, an operator before one that begins with an equals sign, and two
-- lines without a token.
theorem findings_render_slashes :
    WellFormed [.ofPunctuator .slash "/" 1, .ofPunctuator .slash "/" 1, .ofPunctuator .bang "!" 3,
        .ofPunctuator .equalEqual "==" 3, .endOfText 4]
      ∧ findings {} " / /\n\n ! ==\n" =
        { tokens := [.ofPunctuator .slash "/" 1, .ofPunctuator .slash "/" 1,
            .ofPunctuator .bang "!" 3, .ofPunctuator .equalEqual "==" 3, .endOfText 4]
          diagnostics := [] } := by
  have hwell : WellFormed [.ofPunctuator .slash "/" 1, .ofPunctuator .slash "/" 1,
      .ofPunctuator .bang "!" 3, .ofPunctuator .equalEqual "==" 3, .endOfText 4] := by
    rw [wellFormed_iff]
    have hspelled : ∀ p line, Spelled (.ofPunctuator p p.spelling line) :=
      fun p line => ⟨p, rfl, rfl, rfl⟩
    exact .cons (hspelled .slash 1) (by decide) (.cons (hspelled .slash 1) (by decide)
      (.cons (hspelled .bang 3) (by decide) (.cons (hspelled .equalEqual 3) (by decide)
        (.last (by decide)))))
  have hrender : render [.ofPunctuator .slash "/" 1, .ofPunctuator .slash "/" 1,
      .ofPunctuator .bang "!" 3, .ofPunctuator .equalEqual "==" 3, .endOfText 4] =
      " / /\n\n ! ==\n" := by decide
  exact ⟨hwell, hrender ▸ (findings_render {}).2.1 _ hwell⟩

end LoxLexer.Layout
