import LoxLexer.Proofs.Element.Cutting
import Mathlib.Data.List.Basic

/-!
# Elements of a text that goes on

When a text `s` goes on with a text `t`, only the last element of `s` is read again, together with
`t` (`ofChars_append`). It stays as it is if it fits before `t`; otherwise it is a comment that
takes in the rest of its line, an operator that pairs with an equals sign, or a slash that opens a
comment with another one. Which of these happens can be told from the characters around the seam.
-/

namespace LoxLexer

/-- The operator that an equals sign makes of an operator when it follows. -/
def Punctuator.withEqual? : Punctuator → Option Punctuator
  | bang => some bangEqual
  | equal => some equalEqual
  | less => some lessEqual
  | greater => some greaterEqual
  | _ => none

theorem Punctuator.growsWith?_eq_equal_iff {p : Punctuator} :
    p.growsWith? = some '=' ↔ ∃ pair, p.withEqual? = some pair := by
  cases p <;> simp [growsWith?, withEqual?]

theorem Punctuator.growsWith?_eq_slash_iff {p : Punctuator} :
    p.growsWith? = some '/' ↔ p = slash := by
  cases p <;> simp [growsWith?]

-- Only an equals sign or a slash makes a punctuator longer.
theorem Punctuator.growsWith?_cases (p : Punctuator) :
    p.growsWith? = none ∨ p.growsWith? = some '=' ∨ p.growsWith? = some '/' := by
  cases p <;> decide

theorem Punctuator.withEqual?_spelling {p pair : Punctuator} (h : p.withEqual? = some pair) :
    pair.spelling.toList = p.spelling.toList ++ ['='] ∧ pair.growsWith? = none := by
  cases p <;> cases h <;> exact ⟨rfl, rfl⟩

-- The operators of one character that end in one of four signs are those that pair.
theorem Punctuator.isSome_withEqual?_iff (p : Punctuator) :
    p.withEqual?.isSome ↔ p.spelling.toList.getLast? ∈ ['!', '=', '<', '>'].map some
      ∧ p.spelling.length = 1 := by
  cases p <;> decide

theorem Punctuator.newline_notMem_spelling (p : Punctuator) : '\n' ∉ p.spelling.toList := by
  cases p <;> decide

namespace Element

/-! ## 1. The seam -/

-- Only the character after an element decides whether the element fits.
theorem fits_congr {e : Element} {rest rest' : List Char} (h : rest.head? = rest'.head?) :
    e.Fits rest ↔ e.Fits rest' := by
  cases e with
  | comment body =>
    have hnil : rest = [] ↔ rest' = [] := by
      rw [← List.head?_eq_none_iff, ← List.head?_eq_none_iff, h]
    simp only [Fits, hnil, h]
  | _ => simp only [Fits, h]

end Element

open Element

variable {es fs init : List Element} {e : Element} {s t cs : List Char}

theorem Cut.ne_nil (h : Cut es cs) (hes : es ≠ []) : cs ≠ [] := by
  cases h with
  | nil => contradiction
  | @cons e es rest _ _ => simp [e.chars_ne_nil]

-- Every element of a cut fits before some text.
theorem Cut.fits_of_mem (h : Cut es cs) (he : e ∈ es) : ∃ rest, e.Fits rest := by
  induction h with
  | nil => cases he
  | @cons _ _ rest hfits _ ih =>
    rcases List.mem_cons.mp he with rfl | he
    · exact ⟨rest, hfits⟩
    · exact ih he

/-- **Swapping.** If a text is cut in another way from some element on, and goes on there with the
same character, the elements before stay. -/
theorem Cut.swap {gs : List Element} {ds : List Char} (h : Cut (es ++ fs) cs) (hgs : Cut gs ds)
    (hhead : (Element.text fs).head? = ds.head?) : Cut (es ++ gs) (Element.text es ++ ds) := by
  induction es generalizing cs with
  | nil => exact hgs
  | cons a es ih =>
    cases h with
    | @cons _ _ rest hfits hcut =>
      have hrest : Element.text (es ++ fs) = rest := hcut.text_eq
      -- The element in front sees the character that it saw before.
      have hseen : rest.head? = (Element.text es ++ ds).head? := by
        rw [← hrest, Element.text, List.flatMap_append, List.head?_append, List.head?_append,
          ← hhead]
        rfl
      have htext : Element.text (a :: es) ++ ds = a.chars ++ (Element.text es ++ ds) :=
        List.append_assoc ..
      rw [List.cons_append, htext]
      exact .cons ((fits_congr hseen).mp hfits) (ih hcut)

/-- **Splicing.** If a text is cut in another way from its last element on, with more text after
it, the elements before stay. -/
theorem Cut.splice (h : Cut (init ++ [e]) s) (hfs : Cut fs (e.chars ++ t)) :
    Cut (init ++ fs) (s ++ t) := by
  have htext : Element.text (init ++ [e]) = Element.text init ++ e.chars := by
    simp [Element.text]
  have hhead : (Element.text [e]).head? = (e.chars ++ t).head? := by
    obtain ⟨c, cs, hchars⟩ := List.exists_cons_of_ne_nil e.chars_ne_nil
    simp [Element.text, hchars]
  rw [← h.text_eq, htext, List.append_assoc]
  exact h.swap hfs hhead

namespace Element

-- A text that is not empty has a last element, and that one fits before some text.
theorem eq_nil_or_last (cs : List Char) :
    cs = [] ∨ ∃ init e, ofChars cs = init ++ [e] ∧ ∃ rest, e.Fits rest := by
  have hcut : Cut (ofChars cs) cs := cut_ofChars cs
  rcases List.eq_nil_or_concat (ofChars cs) with hnil | ⟨init, e, hlast⟩
  · left
    rw [← hcut.text_eq, hnil]
    rfl
  · right
    rw [List.concat_eq_append] at hlast
    exact ⟨init, e, hlast, hcut.fits_of_mem (by simp [hlast])⟩

theorem ofChars_append (h : ofChars s = init ++ [e]) (t : List Char) :
    ofChars (s ++ t) = init ++ ofChars (e.chars ++ t) := by
  have hcut : Cut (init ++ [e]) s := cut_iff.mpr h.symm
  exact (cut_iff.mp (hcut.splice (cut_ofChars (e.chars ++ t)))).symm

theorem ofChars_append_of_fits (h : ofChars s = init ++ [e]) (hfits : e.Fits t) :
    ofChars (s ++ t) = ofChars s ++ ofChars t := by
  rw [ofChars_append h, ofChars_of_fits hfits, h, List.append_assoc, List.singleton_append]

-- A comment takes in the rest of its line.
theorem ofChars_comment_append {body : List Char} (hbody : '\n' ∉ body) (t : List Char) :
    ofChars ((comment body).chars ++ t) =
      comment (body ++ Line.head t) :: ofChars (Line.rest t) := by
  have hsplit : (comment body).chars ++ t =
      (comment (body ++ Line.head t)).chars ++ Line.rest t := by
    simp [chars, Line.head_append_rest]
  have hhead : '\n' ∉ body ++ Line.head t := by
    simp [hbody, Line.newline_notMem_head]
  have hfits : (comment (body ++ Line.head t)).Fits (Line.rest t) := ⟨hhead, Line.ends_rest t⟩
  rw [hsplit, ofChars_of_fits hfits]

-- An operator that an equals sign follows is another operator.
theorem ofChars_withEqual {p pair : Punctuator} (h : p.withEqual? = some pair) (t : List Char) :
    ofChars ((punctuator p).chars ++ '=' :: t) = punctuator pair :: ofChars t := by
  obtain ⟨hspelling, hgrown⟩ := Punctuator.withEqual?_spelling h
  have hsplit : (punctuator p).chars ++ '=' :: t = (punctuator pair).chars ++ t := by
    simp [chars, hspelling]
  have hfits : (punctuator pair).Fits t := .inl hgrown
  rw [hsplit, ofChars_of_fits hfits]

-- A slash that a slash follows opens a comment.
theorem ofChars_slash_slash (t : List Char) :
    ofChars ((punctuator .slash).chars ++ '/' :: t) =
      comment (Line.head t) :: ofChars (Line.rest t) := by
  have hbody : '\n' ∉ ([] : List Char) := List.not_mem_nil
  exact ofChars_comment_append hbody t

-- What fits before some text also fits where the line or the text ends.
theorem fits_of_ends {rest : List Char} (hfits : e.Fits rest) (ht : Line.Ends t) : e.Fits t := by
  cases e with
  | punctuator p =>
    by_cases hnone : p.growsWith? = none
    · exact .inl hnone
    right
    rcases ht with rfl | hhead
    · exact fun h => hnone h.symm
    · rw [hhead]
      rcases p.growsWith?_cases with h | h | h <;> rw [h] <;> decide
  | comment body => exact ⟨hfits.1, ht⟩
  | blank c => exact hfits
  | newline => trivial
  | unexpected c => exact hfits

theorem fits_nil (p : Punctuator) : (punctuator p).Fits [] := by
  cases p <;> decide

theorem ofChars_append_of_ends (s : List Char) (ht : Line.Ends t) :
    ofChars (s ++ t) = ofChars s ++ ofChars t := by
  rcases eq_nil_or_last s with hs | ⟨init, e, hlast, rest, hfits⟩
  · rw [hs, ofChars_nil, List.nil_append, List.nil_append]
  · exact ofChars_append_of_fits hlast (fits_of_ends hfits ht)

/-- **Lines.** A newline cuts the elements of a text in two. -/
theorem ofChars_append_newline (s t : List Char) :
    ofChars (s ++ '\n' :: t) = ofChars s ++ newline :: ofChars t := by
  have hnewline : ofChars ('\n' :: t) = newline :: ofChars t :=
    ofChars_of_fits (e := newline) trivial
  rw [ofChars_append_of_ends s (.inr rfl), hnewline]

-- An element of a text that is no comment fits before all that does not make it longer.
theorem fits_of_not_grows {rest : List Char} (hfits : e.Fits rest)
    (hcomment : ∀ body, e ≠ comment body)
    (hpair : ∀ p pair, e = punctuator p → p.withEqual? = some pair → t.head? ≠ some '=')
    (hslash : e = punctuator .slash → t.head? ≠ some '/') : e.Fits t := by
  cases e with
  | punctuator p =>
    by_cases hnone : p.growsWith? = none
    · exact .inl hnone
    right
    intro hgrows
    rcases p.growsWith?_cases with h | h | h
    · exact hnone h
    · obtain ⟨pair, hp⟩ := Punctuator.growsWith?_eq_equal_iff.mp h
      exact hpair p pair rfl hp (hgrows.trans h)
    · obtain rfl := Punctuator.growsWith?_eq_slash_iff.mp h
      exact hslash rfl hgrows
  | comment body => exact absurd rfl (hcomment body)
  | blank c => exact hfits
  | newline => trivial
  | unexpected c => exact hfits

/-! ## 2. The end of a text -/

theorem infix_cons {c : Char} (hne : c = '/' → cs.head? ≠ some '/')
    (h : ['/', '/'] <:+: c :: cs) : ['/', '/'] <:+: cs := by
  rcases List.infix_cons_iff.mp h with hprefix | hinfix
  · obtain ⟨rfl, tail, rfl⟩ := List.cons_prefix_cons.mp hprefix
    exact absurd rfl (hne rfl)
  · exact hinfix

theorem infix_append {us : List Char} (hus : '/' ∉ us) (h : ['/', '/'] <:+: us ++ cs) :
    ['/', '/'] <:+: cs := by
  induction us with
  | nil => exact h
  | cons c us ih =>
    rw [List.mem_cons, not_or] at hus
    exact ih hus.2 (infix_cons (fun hc => absurd hc.symm hus.1) h)

-- The only elements that hold a slash are the slash and comments.
theorem slash_notMem_chars {rest : List Char} (hfits : e.Fits rest)
    (hcomment : ∀ body, e ≠ comment body) (hslash : e ≠ punctuator .slash) : '/' ∉ e.chars := by
  cases e with
  | punctuator p => cases p <;> first | decide | exact absurd rfl hslash
  | comment body => exact absurd rfl (hcomment body)
  | blank c => rcases hfits with rfl | rfl | rfl <;> decide
  | newline => decide
  | unexpected c =>
    intro h
    rw [chars, List.mem_singleton] at h
    exact hfits (h ▸ by decide)

-- A line with two slashes in a row ends in a comment.
theorem exists_comment_of_infix (hcut : Cut es cs) (hline : '\n' ∉ cs)
    (hslashes : ['/', '/'] <:+: cs) : ∃ init body, es = init ++ [comment body] := by
  -- A comment reaches to the end of the line; any other element leaves both slashes to the rest.
  induction hcut with
  | nil => simp at hslashes
  | @cons e es rest hfits hcut ih =>
    rw [List.mem_append, not_or] at hline
    by_cases hcomment : ∃ body, e = comment body
    · obtain ⟨body, rfl⟩ := hcomment
      have hrest : rest = [] := by
        rcases hfits.2 with hrest | hhead
        · exact hrest
        · obtain ⟨tail, rfl⟩ := List.head?_eq_some_iff.mp hhead
          simp at hline
      rw [hrest, cut_iff, ofChars_nil] at hcut
      exact ⟨[], body, by rw [hcut, List.nil_append]⟩
    · have hinfix : ['/', '/'] <:+: rest := by
        by_cases hslash : e = punctuator .slash
        · subst hslash
          exact infix_cons (fun _ => by simpa [Fits, Punctuator.growsWith?] using hfits) hslashes
        · have hne : ∀ body, e ≠ comment body := fun body h => hcomment ⟨body, h⟩
          exact infix_append (slash_notMem_chars hfits hne hslash) hslashes
      obtain ⟨init, body, rfl⟩ := ih hline.2 hinfix
      exact ⟨e :: init, body, rfl⟩

/-- **The last line.** A text ends in a comment exactly if there are two slashes in a row in its
last line. -/
theorem infix_last_iff :
    ['/', '/'] <:+: Line.last cs ↔ ∃ init body, ofChars cs = init ++ [comment body] := by
  constructor
  · intro h
    obtain ⟨init, body, hlast⟩ :=
      exists_comment_of_infix (cut_ofChars _) (Line.newline_notMem_last cs) h
    rcases Line.exists_append_last cs with heq | ⟨before, heq⟩
    · exact ⟨init, body, by rw [heq, hlast]⟩
    · refine ⟨ofChars before ++ newline :: init, body, ?_⟩
      rw [heq, ofChars_append_newline, hlast, List.append_assoc, List.cons_append]
  · -- The comment brings two slashes and no newline.
    intro ⟨init, body, h⟩
    have hcut : Cut (init ++ [comment body]) cs := cut_iff.mpr h.symm
    obtain ⟨rest, hbody, -⟩ := hcut.fits_of_mem (e := comment body) (by simp)
    have htext : cs = text init ++ '/' :: '/' :: body := by
      rw [← hcut.text_eq]
      simp [text, chars]
    have hline : '\n' ∉ '/' :: '/' :: body := by simp [hbody]
    rw [htext, Line.last_append (text init) hline]
    exact ⟨Line.last (text init), body, by simp⟩

/-- **Texts side by side.** Two texts keep their elements if the first does not end in a comment,
nothing pairs with an equals sign between them, and no slashes meet. -/
theorem ofChars_append_of_apart (hcomment : ¬ ['/', '/'] <:+: Line.last s)
    (hequal : t.head? = some '=' → ∀ c ∈ ['!', '=', '<', '>'], s.getLast? ≠ some c)
    (hslash : t.head? = some '/' → s.getLast? ≠ some '/') :
    ofChars (s ++ t) = ofChars s ++ ofChars t := by
  rcases eq_nil_or_last s with hs | ⟨init, e, hlast, rest, hfits⟩
  · rw [hs, ofChars_nil, List.nil_append, List.nil_append]
  · have hend : s.getLast? = e.chars.getLast? := by
      rw [← (cut_ofChars s).text_eq, hlast, text, List.flatMap_append, List.flatMap_singleton,
        List.getLast?_append_of_ne_nil _ e.chars_ne_nil]
    apply ofChars_append_of_fits hlast
    apply fits_of_not_grows hfits
    · intro body he
      exact hcomment (infix_last_iff.mpr ⟨init, body, he ▸ hlast⟩)
    · intro p pair he hp ht
      have hsome : p.withEqual?.isSome := by rw [hp]; rfl
      obtain ⟨c, hc, hchar⟩ := List.mem_map.mp (p.isSome_withEqual?_iff.mp hsome).1
      apply hequal ht c hc
      rw [hend, he, chars, hchar]
    · intro he ht
      apply hslash ht
      rw [hend, he]
      rfl

-- Two texts keep their elements if the first does not end in a comment, no equals sign follows it,
-- and no slashes meet.
theorem ofChars_append_of_seam (hcomment : ¬ ['/', '/'] <:+: Line.last s)
    (hequal : t.head? ≠ some '=') (hslash : t.head? = some '/' → s.getLast? ≠ some '/') :
    ofChars (s ++ t) = ofChars s ++ ofChars t :=
  ofChars_append_of_apart hcomment (fun h => absurd h hequal) hslash

end Element

end LoxLexer
