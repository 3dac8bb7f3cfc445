import LoxLexer.Proofs.Element.Joining
import LoxLexer.Proofs.Element.Meaning
import Mathlib.Data.List.DropRight

/-!
# Elements line by line

No element reaches from one line into the next, so the elements of a text are those of its first
line and those of the lines after it. What they mean is the same in the text and in the line, but
for the number of the line. Blanks and newlines at the end of a line can be left out: they mean
nothing, and a comment that takes them in means nothing either.
-/

namespace LoxLexer.Element

variable {α : Type} {f : List Char → Element → Option α} {cs : List Char} {c : Char}

/-! ## 1. The first line and the others -/

theorem ofChars_concat_newline (cs : List Char) :
    ofChars (cs ++ ['\n']) = ofChars cs ++ [newline] := by
  rw [ofChars_append_newline, ofChars_nil]

theorem ofChars_first_append_later (cs : List Char) :
    ofChars cs = ofChars (Line.first cs) ++ ofChars (Line.later cs) := by
  calc
    ofChars cs = ofChars (Line.first cs ++ Line.later cs) := by rw [Line.first_append_later]
    _ = ofChars (Line.first cs) ++ ofChars (Line.later cs) := by
      rcases Line.first_cases cs with hfirst | ⟨-, hlater⟩
      · rw [hfirst, ofChars_concat_newline, List.append_assoc, List.append_assoc,
          List.singleton_append, List.singleton_append, ofChars_append_newline]
      · rw [hlater, ofChars_nil, List.append_nil, List.append_nil]

/-- **The lines after the first.** If more text before an element raises what it means by the
newlines in it, the lines after the first are raised by one. -/
theorem collect_ofChars {raise : Nat → α → α}
    (h : ∀ pre before e, f (pre ++ before) e = (f before e).map (raise (pre.count '\n')))
    (cs : List Char) :
    collect f [] (ofChars cs) = collect f [] (ofChars (Line.first cs))
      ++ (collect f [] (ofChars (Line.later cs))).map (raise 1) := by
  have hsplit : collect f [] (ofChars cs) = collect f [] (ofChars (Line.first cs))
      ++ collect f (Line.first cs) (ofChars (Line.later cs)) := by
    rw [ofChars_first_append_later, collect_append, text_ofChars, List.nil_append]
  have hraise : collect f (Line.first cs) (ofChars (Line.later cs)) =
      (collect f [] (ofChars (Line.later cs))).map (raise ((Line.first cs).count '\n')) := by
    rw [← collect_map (h (Line.first cs)), List.append_nil]
  rw [hsplit, hraise]
  rcases Line.first_cases cs with hfirst | ⟨-, hlater⟩
  · have hcount : (Line.first cs).count '\n' = 1 := by
      rw [hfirst, List.count_append, List.count_eq_zero_of_not_mem (Line.newline_notMem_head cs)]
      rfl
    rw [hcount]
  · rw [hlater, ofChars_nil]
    rfl

/-! ## 2. The end of a line -/

-- A blank after a text is an element of its own, or belongs to a comment.
theorem ofChars_concat_blank (hc : c = ' ' ∨ c = '\r' ∨ c = '\t') (cs : List Char) :
    ofChars (cs ++ [c]) = ofChars cs ++ [blank c]
      ∨ ∃ init body, ofChars cs = init ++ [comment body]
          ∧ ofChars (cs ++ [c]) = init ++ [comment (body ++ [c])] := by
  have hblank : ofChars [c] = [blank c] := by
    have hfits : (blank c).Fits [] := hc
    have h := ofChars_of_fits hfits
    rwa [ofChars_nil] at h
  rcases eq_nil_or_last cs with hcs | ⟨init, e, hlast, rest, hfits⟩
  · left
    rw [hcs, ofChars_nil, List.nil_append, List.nil_append, hblank]
  · by_cases hcomment : ∃ body, e = comment body
    · right
      obtain ⟨body, rfl⟩ := hcomment
      have hline : '\n' ∉ [c] := by rcases hc with rfl | rfl | rfl <;> decide
      have hhead : Line.head [c] = [c] := Line.head_append hline []
      have hrest : Line.rest [c] = [] := Line.rest_append hline []
      refine ⟨init, body, hlast, ?_⟩
      rw [ofChars_append hlast, ofChars_comment_append hfits.1, hhead, hrest, ofChars_nil]
    · left
      have hne : ∀ body, e ≠ comment body := fun body h => hcomment ⟨body, h⟩
      have hblanks : e.Fits [c] := by
        apply fits_of_not_grows hfits hne
        · intro _ _ _ _ heq
          rcases hc with rfl | rfl | rfl <;> cases heq
        · intro _ heq
          rcases hc with rfl | rfl | rfl <;> cases heq
      rw [ofChars_append_of_fits hlast hblanks, hblank]

/-- Comments, blanks and newlines stand between the elements that mean something. -/
def Separates : Element → Prop
  | comment _ => True
  | blank _ => True
  | newline => True
  | _ => False

/-- An element that separates others means nothing by `f`. -/
def Skips (f : List Char → Element → Option α) : Prop :=
  ∀ before e, e.Separates → f before e = none

theorem skips_token? : Skips token? := by
  intro before e he
  cases e <;> first | rfl | cases he

theorem skips_diagnostic? : Skips diagnostic? := by
  intro before e he
  cases e <;> first | rfl | cases he

theorem collect_of_separates (hf : Skips f) (before : List Char) {es : List Element}
    (h : ∀ e ∈ es, e.Separates) : collect f before es = [] := by
  induction es generalizing before with
  | nil => rfl
  | cons e es ih =>
    rw [List.forall_mem_cons] at h
    rw [collect, hf before e h.1, ih _ h.2]
    rfl

theorem collect_concat_separates (hf : Skips f) (before : List Char) (init : List Element)
    {e : Element} (he : e.Separates) :
    collect f before (init ++ [e]) = collect f before init := by
  rw [collect_append, collect, collect, hf _ e he]
  exact List.append_nil _

theorem collect_concat_newline (hf : Skips f) (cs : List Char) :
    collect f [] (ofChars (cs ++ ['\n'])) = collect f [] (ofChars cs) := by
  rw [ofChars_concat_newline, collect_concat_separates hf]
  exact trivial

theorem collect_concat_blank (hf : Skips f) (hc : c = ' ' ∨ c = '\r' ∨ c = '\t') (cs : List Char) :
    collect f [] (ofChars (cs ++ [c])) = collect f [] (ofChars cs) := by
  rcases ofChars_concat_blank hc cs with h | ⟨init, body, hlast, h⟩
  · rw [h, collect_concat_separates hf]
    exact trivial
  · rw [h, hlast, collect_concat_separates hf, collect_concat_separates hf]
    all_goals exact trivial

/-- **Trimming.** Carriage returns and newlines at the end of a text add nothing to what its
elements mean. -/
theorem collect_trim (hf : Skips f) (p : Char → Bool) (hp : ∀ c, p c → c = '\n' ∨ c = '\r')
    (cs : List Char) :
    collect f [] (ofChars (cs.rdropWhile p)) = collect f [] (ofChars cs) := by
  induction cs using List.reverseRecOn with
  | nil => rw [List.rdropWhile_nil]
  | append_singleton cs c ih =>
    by_cases hc : p c
    · rw [List.rdropWhile_concat_pos p cs c hc, ih]
      rcases hp c hc with rfl | rfl
      · rw [collect_concat_newline hf]
      · rw [collect_concat_blank hf (.inr (.inl rfl))]
    · rw [List.rdropWhile_concat_neg p cs c hc]

/-! ## 3. Diagnostics by their lines -/

theorem reports_eq (cs : List Char) :
    reports cs = reports (Line.first cs) ++ (reports (Line.later cs)).map (Diagnostic.raise 1) :=
  collect_ofChars diagnostic?_append cs

theorem line_of_mem_reports_first {d : Diagnostic} (h : d ∈ reports (Line.first cs)) :
    d.line = 1 := by
  -- The newline of the line, if there is one, comes after all diagnostics.
  have hhead : reports (Line.first cs) = reports (Line.head cs) := by
    rcases Line.first_cases cs with hfirst | ⟨hfirst, -⟩
    · rw [hfirst]
      exact collect_concat_newline skips_diagnostic? (Line.head cs)
    · rw [hfirst]
  rw [hhead] at h
  obtain ⟨init, e, rest, hsplit, hd⟩ := exists_of_mem_collect h
  have hline : '\n' ∉ Element.text init := by
    intro hmem
    apply Line.newline_notMem_head cs
    rw [← text_ofChars (Line.head cs), hsplit, text_append, List.mem_append]
    exact .inl hmem
  cases e with
  | unexpected c =>
    cases hd
    exact lineAfter_append_of_notMem [] hline
  | _ => cases hd

theorem reports_nil : reports [] = [] := by
  rw [reports, ofChars_nil]
  rfl

-- Every diagnostic is on one of the lines of its text.
theorem line_of_mem_reports {d : Diagnostic} (h : d ∈ reports cs) :
    1 ≤ d.line ∧ d.line ≤ (Line.all cs).length := by
  induction cs using Line.induction_later generalizing d with
  | nil =>
    rw [reports_nil] at h
    cases h
  | cons cs hcs ih =>
    rw [reports_eq, List.mem_append, List.mem_map] at h
    rw [Line.all_of_ne_nil hcs, List.length_cons]
    rcases h with hfirst | ⟨d, hlater, rfl⟩
    · have hline := line_of_mem_reports_first hfirst
      omega
    · have hbounds := ih hlater
      show 1 ≤ d.line + 1 ∧ d.line + 1 ≤ _
      omega

theorem map_toFirstLine_first (cs : List Char) :
    (reports (Line.first cs)).map Diagnostic.toFirstLine = reports (Line.first cs) := by
  rw [List.map_congr_left (g := id), List.map_id]
  intro d hd
  show { d with line := 1 } = d
  rw [← line_of_mem_reports_first hd]

-- The diagnostics on the line with some number are those of the line itself.
theorem filter_reports {k : Nat} {line : List Char} (h : (Line.all cs)[k]? = some line) :
    ((reports cs).filter (·.line = k + 1)).map Diagnostic.toFirstLine = reports line := by
  induction cs using Line.induction_later generalizing k with
  | nil =>
    rw [Line.all_nil] at h
    cases h
  | cons cs hcs ih =>
    rw [Line.all_of_ne_nil hcs] at h
    -- The first line keeps its number, and the others are raised past it.
    rw [reports_eq, List.filter_append, List.filter_map, List.map_append, List.map_map]
    rcases k with _ | k
    · obtain rfl : Line.first cs = line := Option.some.inj h
      have hfirst : (reports (Line.first cs)).filter (·.line = 0 + 1) =
          reports (Line.first cs) := by
        rw [List.filter_eq_self]
        intro d hd
        rw [line_of_mem_reports_first hd]
        rfl
      have hlater : (reports (Line.later cs)).filter
          ((fun d : Diagnostic => decide (d.line = 0 + 1)) ∘ Diagnostic.raise 1) = [] := by
        rw [List.filter_eq_nil_iff]
        intro d hd
        have hbounds := line_of_mem_reports hd
        show ¬ decide (d.line + 1 = 0 + 1) = true
        rw [decide_eq_true_eq]
        omega
      rw [hfirst, hlater, List.map_nil, List.append_nil, map_toFirstLine_first]
    · have hfirst : (reports (Line.first cs)).filter (·.line = k + 1 + 1) = [] := by
        rw [List.filter_eq_nil_iff]
        intro d hd
        have hline := line_of_mem_reports_first hd
        rw [decide_eq_true_eq]
        omega
      have hlater : (reports (Line.later cs)).filter
          ((fun d : Diagnostic => decide (d.line = k + 1 + 1)) ∘ Diagnostic.raise 1) =
            (reports (Line.later cs)).filter (·.line = k + 1) := by
        apply List.filter_congr
        intro d _
        simp [Diagnostic.raise]
      rw [hfirst, hlater, List.map_nil, List.nil_append]
      rw [List.getElem?_cons_succ] at h
      exact ih h

-- But for their lines, the diagnostics of a text are those of its lines in order.
theorem map_toFirstLine_reports (cs : List Char) :
    (reports cs).map Diagnostic.toFirstLine = (Line.all cs).flatMap reports := by
  induction cs using Line.induction_later with
  | nil =>
    rw [reports_nil, Line.all_nil]
    rfl
  | cons cs hcs ih =>
    rw [reports_eq, List.map_append, List.map_map, Line.all_of_ne_nil hcs, List.flatMap_cons,
      map_toFirstLine_first, ← ih]
    rfl

end LoxLexer.Element
