import LoxLexer.Lead
import LoxLexer.Element
import LoxLexer.Proofs.Line

/-!
# Cutting a text into elements

Every text has exactly one cut. `Element.first?` takes the first element off a text, and
`first?_eq_some_iff` says that it is the only one that fits there; `Element.ofChars` takes off one
element after another, and `cut_iff` says that nothing else is a cut of the text.
-/

namespace LoxLexer

/-! ## 1. What the first character tells -/

/-- What a class says about a character, in terms of the spellings of punctuators. -/
def Lead.Describes : Lead → Char → Prop
  | alone p, c => p.spelling.toList = [c] ∧ p.growsWith? = none
  | pairable single pair, c =>
    single.spelling.toList = [c] ∧ single.growsWith? = some '='
      ∧ pair.spelling.toList = [c, '='] ∧ pair.growsWith? = none
  | slash, c => c = '/'
  | blank, c => c = ' ' ∨ c = '\r' ∨ c = '\t'
  | newline, c => c = '\n'
  | unexpected, c => c ∉ alphabet

theorem Lead.describes_ofChar (c : Char) : (Lead.ofChar c).Describes c := by
  unfold Lead.ofChar
  split
  case h_20 =>
    unfold Lead.Describes alphabet
    simp only [List.mem_cons, List.not_mem_nil, or_false, not_or]
    and_intros <;> assumption
  all_goals simp [Lead.Describes, Punctuator.spelling, Punctuator.growsWith?]

theorem Lead.ofChar_of_notMem {c : Char} (h : c ∉ alphabet) : Lead.ofChar c = .unexpected := by
  unfold Lead.ofChar
  split <;> first | rfl | exact absurd (by decide) h

namespace Element

/-! ## 2. The first element -/

/-- The first element of a text, and the text after it. -/
def first? : List Char → Option (Element × List Char)
  | [] => none
  | c :: rest =>
    match Lead.ofChar c with
    | .alone p => some (.punctuator p, rest)
    | .pairable single pair =>
      if rest.head? = some '=' then some (.punctuator pair, rest.tail)
      else some (.punctuator single, rest)
    | .slash =>
      if rest.head? = some '/' then
        some (.comment (Line.head rest.tail), Line.rest rest.tail)
      else some (.punctuator .slash, rest)
    | .blank => some (.blank c, rest)
    | .newline => some (.newline, rest)
    | .unexpected => some (.unexpected c, rest)

-- What is taken off a text first fits there, and nothing of the text is lost.
theorem fits_of_first? {cs rest : List Char} {e : Element} (h : first? cs = some (e, rest)) :
    cs = e.chars ++ rest ∧ e.Fits rest := by
  rcases cs with _ | ⟨c, cs⟩
  · cases h
  have hlead := Lead.describes_ofChar c
  rw [first?] at h
  -- Only the classes `pairable` and `slash` look at the character after the first.
  cases hc : Lead.ofChar c with
  | alone p =>
    rw [hc] at hlead
    simp only [hc] at h
    cases h
    exact ⟨by simp [chars, hlead.1], .inl hlead.2⟩
  | pairable single pair =>
    rw [hc] at hlead
    simp only [hc] at h
    obtain ⟨hsingle, hgrows, hpair, hgrown⟩ := hlead
    by_cases heq : cs.head? = some '='
    · rw [if_pos heq] at h
      cases h
      obtain ⟨tail, rfl⟩ := List.head?_eq_some_iff.mp heq
      exact ⟨by simp [chars, hpair], .inl hgrown⟩
    · rw [if_neg heq] at h
      cases h
      exact ⟨by simp [chars, hsingle], .inr (hgrows ▸ heq)⟩
  | slash =>
    rw [hc] at hlead
    simp only [hc] at h
    obtain rfl : c = '/' := hlead
    by_cases hslash : cs.head? = some '/'
    · rw [if_pos hslash] at h
      cases h
      obtain ⟨tail, rfl⟩ := List.head?_eq_some_iff.mp hslash
      refine ⟨?_, Line.newline_notMem_head tail, Line.ends_rest tail⟩
      simp [chars, Line.head_append_rest]
    · rw [if_neg hslash] at h
      cases h
      exact ⟨rfl, .inr hslash⟩
  | blank =>
    rw [hc] at hlead
    simp only [hc] at h
    cases h
    exact ⟨rfl, hlead⟩
  | newline =>
    rw [hc] at hlead
    simp only [hc] at h
    cases h
    obtain rfl : c = '\n' := hlead
    exact ⟨rfl, trivial⟩
  | unexpected =>
    rw [hc] at hlead
    simp only [hc] at h
    cases h
    exact ⟨rfl, hlead⟩

-- An element that fits is the one that is taken off.
theorem first?_of_fits {e : Element} {rest : List Char} (h : e.Fits rest) :
    first? (e.chars ++ rest) = some (e, rest) := by
  cases e with
  | punctuator p =>
    -- Only `bang`, `equal`, `less`, `greater` and `slash` have to look at the rest.
    cases p <;>
      simp_all [Fits, chars, first?, Lead.ofChar, Punctuator.spelling, Punctuator.growsWith?]
  | comment body =>
    obtain ⟨hbody, hrest⟩ := h
    simp [chars, first?, Lead.ofChar, Line.head_append hbody, Line.rest_append hbody,
      Line.head_of_ends hrest, Line.rest_of_ends hrest]
  | blank c =>
    rcases h with rfl | rfl | rfl <;> rfl
  | newline => rfl
  | unexpected c => simp [chars, first?, Lead.ofChar_of_notMem h]

theorem first?_eq_some_iff {cs rest : List Char} {e : Element} :
    first? cs = some (e, rest) ↔ cs = e.chars ++ rest ∧ e.Fits rest := by
  constructor
  · exact fits_of_first?
  · intro h
    rw [h.1]
    exact first?_of_fits h.2

/-! ## 3. All elements -/

theorem length_lt_of_first? {cs rest : List Char} {e : Element} (h : first? cs = some (e, rest)) :
    rest.length < cs.length := by
  have hpos := List.length_pos_iff.mpr e.chars_ne_nil
  rw [(fits_of_first? h).1, List.length_append]
  omega

def ofChars (cs : List Char) : List Element :=
  match _ : first? cs with
  | none => []
  | some (e, rest) => e :: ofChars rest
termination_by cs.length
decreasing_by exact length_lt_of_first? ‹_›

@[simp] theorem ofChars_nil : ofChars [] = [] := by
  rw [ofChars]
  rfl

theorem ofChars_of_first? {cs rest : List Char} {e : Element} (h : first? cs = some (e, rest)) :
    ofChars cs = e :: ofChars rest := by
  rw [ofChars]
  split
  · simp_all
  · rename_i hfirst
    rw [hfirst] at h
    cases h
    rfl

theorem ofChars_of_fits {e : Element} {rest : List Char} (h : e.Fits rest) :
    ofChars (e.chars ++ rest) = e :: ofChars rest :=
  ofChars_of_first? (first?_of_fits h)

-- A text that is not empty has a first element.
theorem exists_first? {cs : List Char} (h : cs ≠ []) : ∃ e rest, first? cs = some (e, rest) := by
  obtain ⟨c, tail, rfl⟩ := List.exists_cons_of_ne_nil h
  have hsome : (first? (c :: tail)).isSome := by
    rw [first?]
    split <;> first | rfl | (split <;> rfl)
  obtain ⟨⟨e, rest⟩, hfirst⟩ := Option.isSome_iff_exists.mp hsome
  exact ⟨e, rest, hfirst⟩

end Element

open Element

theorem cut_ofChars (cs : List Char) : Cut (ofChars cs) cs := by
  by_cases hcs : cs = []
  · rw [hcs, ofChars_nil]
    exact .nil
  · obtain ⟨e, rest, hfirst⟩ := exists_first? hcs
    have hlt : rest.length < cs.length := length_lt_of_first? hfirst
    obtain ⟨hsplit, hfits⟩ := fits_of_first? hfirst
    rw [hsplit, ofChars_of_fits hfits]
    exact .cons hfits (cut_ofChars rest)
termination_by cs.length

-- A text has one cut and no other.
theorem cut_iff {es : List Element} {cs : List Char} : Cut es cs ↔ es = ofChars cs := by
  constructor
  · -- Each element of a cut fits, so it is the one that `ofChars` takes off there.
    intro h
    induction h with
    | nil => exact ofChars_nil.symm
    | cons hfits _ ih => rw [ofChars_of_fits hfits, ih]
  · intro h
    rw [h]
    exact cut_ofChars cs

end LoxLexer
