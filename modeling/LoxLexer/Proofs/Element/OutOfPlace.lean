import LoxLexer.Proofs.Element.Joining
import LoxLexer.Proofs.Element.Meaning
import Mathlib.Data.List.Induction

/-!
# Characters out of place

Which characters of a text are unexpected can be told without cutting the text into elements: those
outside the alphabet with no two slashes in a row before them on their line (`OutOfPlace`). Each
character that is added to a text adds its own diagnostic or none (`reports_concat`), so that the
diagnostics are those of the characters out of place, in their order (`reports_eq_map_misplaced`).
-/

namespace LoxLexer

/-- A character behind some text is outside the alphabet, and there are not two slashes in a row
between the last newline of the text and the character. -/
def OutOfPlace (before : List Char) (c : Char) : Prop :=
  c ∉ alphabet ∧ ¬ ['/', '/'] <:+: Line.last before

instance (before : List Char) (c : Char) : Decidable (OutOfPlace before c) :=
  inferInstanceAs (Decidable (_ ∧ _))

/-- The characters of a text that are out of place, each with its position, in their order. -/
def misplaced (cs : List Char) : List (Char × Nat) :=
  cs.zipIdx.filter fun x => OutOfPlace (cs.take x.2) x.1

/-- The diagnostic of a character with its position in a text. -/
def diagnosticAt (cs : List Char) (x : Char × Nat) : Diagnostic where
  line := lineAfter (cs.take x.2)
  message := "Unexpected character: " ++ String.singleton x.1

theorem mem_misplaced_iff {cs : List Char} {c : Char} {position : Nat} :
    (c, position) ∈ misplaced cs ↔
      cs[position]? = some c ∧ OutOfPlace (cs.take position) c := by
  rw [misplaced, List.mem_filter, List.mem_zipIdx_iff_getElem?, decide_eq_true_eq]

theorem pairwise_misplaced (cs : List Char) :
    (misplaced cs).Pairwise fun x y => x.2 < y.2 := by
  have hsublist : ((misplaced cs).map Prod.snd).Sublist (cs.zipIdx.map Prod.snd) :=
    List.filter_sublist.map Prod.snd
  rw [List.zipIdx_map_snd] at hsublist
  exact List.pairwise_map.mp ((List.pairwise_lt_range' 1).sublist hsublist)

open Element

variable {es fs init : List Element} {e : Element} {cs before rest : List Char} {c : Char}

/-! ## 1. Parts of a cut -/

-- What stands before an element of a cut, the element, and what stands after it.
theorem Cut.split (h : Cut (es ++ e :: fs) cs) :
    Cut es (text es) ∧ e.Fits (text fs) ∧ Cut fs (text fs) := by
  induction es generalizing cs with
  | nil =>
    rw [List.nil_append] at h
    cases h with
    | cons hfits hcut =>
      rw [hcut.text_eq]
      exact ⟨.nil, hfits, hcut⟩
  | cons a es ih =>
    rw [List.cons_append] at h
    cases h with
    | @cons _ _ rest hfits hcut =>
      obtain ⟨hes, he, hfs⟩ := ih hcut
      refine ⟨.cons ?_ hes, he, hfs⟩
      -- The element in front sees the character that it saw before, or the end of the text.
      by_cases hnil : es = []
      · rw [hnil]
        exact fits_of_ends hfits (.inl rfl)
      · have hhead : rest.head? = (text es).head? := by
          obtain ⟨c, tail, htext⟩ := List.exists_cons_of_ne_nil (hes.ne_nil hnil)
          rw [← hcut.text_eq, text_append, htext]
          rfl
        exact (fits_congr hhead).mp hfits

/-! ## 2. Unexpected characters -/

theorem ofChars_of_outOfPlace (h : OutOfPlace before c) (rest : List Char) :
    ofChars (before ++ c :: rest) = ofChars before ++ unexpected c :: ofChars rest := by
  have hunexpected : ofChars (c :: rest) = unexpected c :: ofChars rest :=
    ofChars_of_fits (e := unexpected c) h.1
  -- Neither the equals sign nor the slash is out of place.
  have hhead : ∀ d ∈ alphabet, (c :: rest).head? ≠ some d := by
    intro d hd heq
    exact h.1 (Option.some.inj heq ▸ hd)
  rw [ofChars_append_of_seam h.2 (hhead '=' (by decide)), hunexpected]
  intro hslash
  exact absurd hslash (hhead '/' (by decide))

theorem Cut.outOfPlace (h : Cut (es ++ unexpected c :: fs) cs) : OutOfPlace (text es) c := by
  obtain ⟨hes, hc, -⟩ := h.split
  refine ⟨hc, fun hslashes => ?_⟩
  -- A comment right before the character would have to end with its line.
  obtain ⟨init, body, hlast⟩ := infix_last_iff.mp hslashes
  rw [← cut_iff.mp hes] at hlast
  rw [hlast, List.append_assoc] at h
  obtain ⟨-, ⟨-, hnil | hhead⟩, -⟩ := h.split (e := comment body)
  · cases hnil
  · exact hc (Option.some.inj hhead ▸ by decide)

/-- **Unexpected characters.** A character of a text is an element of its own, and unexpected,
exactly if it is out of place. -/
theorem exists_cut_unexpected_iff (cs : List Char) (c : Char) (position : Nat) :
    (∃ es fs, Cut (es ++ unexpected c :: fs) cs ∧ (text es).length = position)
      ↔ cs[position]? = some c ∧ OutOfPlace (cs.take position) c := by
  constructor
  · rintro ⟨es, fs, hcut, rfl⟩
    have htext : cs = text es ++ c :: text fs := by
      rw [← hcut.text_eq, text_append, text_cons]
      rfl
    refine ⟨?_, ?_⟩
    · rw [htext, List.getElem?_append_right (Nat.le_refl _), Nat.sub_self]
      rfl
    · rw [htext, List.take_left]
      exact hcut.outOfPlace
  · intro ⟨hc, hplace⟩
    obtain ⟨hlt, hget⟩ := List.getElem?_eq_some_iff.mp hc
    have hsplit : cs.take position ++ c :: cs.drop (position + 1) = cs := by
      rw [← hget, ← List.drop_eq_getElem_cons, List.take_append_drop]
    refine ⟨ofChars (cs.take position), ofChars (cs.drop (position + 1)), ?_, ?_⟩
    · rw [cut_iff, ← ofChars_of_outOfPlace hplace, hsplit]
    · rw [text_ofChars, List.length_take, Nat.min_eq_left hlt.le]

/-! ## 3. Diagnostics -/

-- The alphabet alone gives no diagnostics.
theorem collect_diagnostic?_of_alphabet (before : List Char) (h : ∀ c ∈ cs, c ∈ alphabet) :
    collect diagnostic? before (ofChars cs) = [] := by
  rw [List.eq_nil_iff_forall_not_mem]
  intro d hd
  obtain ⟨init, e, rest, hsplit, hdiagnostic⟩ := exists_of_mem_collect hd
  cases e with
  | unexpected c =>
    have hcut : Cut (init ++ unexpected c :: rest) cs := cut_iff.mpr hsplit.symm
    obtain ⟨_, hc⟩ := hcut.fits_of_mem (e := unexpected c) (by simp)
    apply hc (h c _)
    rw [← hcut.text_eq, text_append, text_cons, List.mem_append, List.mem_append]
    exact .inr (.inl (List.mem_singleton_self c))
  | _ => cases hdiagnostic

-- Only comments and unexpected characters hold anything from outside the alphabet.
theorem mem_alphabet_of_mem_chars (hfits : e.Fits rest) (hcomment : ∀ body, e ≠ comment body)
    (hunexpected : ∀ d, e ≠ unexpected d) (hc : c ∈ e.chars) : c ∈ alphabet := by
  cases e with
  | punctuator p =>
    have hall : p.spelling.toList.all (· ∈ alphabet) = true := by cases p <;> decide
    exact of_decide_eq_true (List.all_eq_true.mp hall c hc)
  | comment body => exact absurd rfl (hcomment body)
  | blank d =>
    rw [List.mem_singleton.mp hc]
    rcases hfits with rfl | rfl | rfl <;> decide
  | newline =>
    rw [List.mem_singleton.mp hc]
    decide
  | unexpected d => exact absurd rfl (hunexpected d)

-- The character that follows an element can make another element of it, but none that reports more.
theorem collect_diagnostic?_append (hfits : e.Fits rest)
    (hc : (∀ body, e ≠ comment body) → c ∈ alphabet) (before : List Char) :
    collect diagnostic? before (ofChars (e.chars ++ [c])) = collect diagnostic? before [e] := by
  by_cases hcomment : ∃ body, e = comment body
  · -- The comment takes in every character but a newline.
    obtain ⟨body, rfl⟩ := hcomment
    have hrest : ∀ d ∈ Line.rest [c], d ∈ alphabet := by
      intro d hd
      have hnewline : d = '\n' := by
        by_cases hc : c = '\n' <;> simp_all [Line.rest]
      rw [hnewline]
      decide
    rw [ofChars_comment_append hfits.1, collect, collect_diagnostic?_of_alphabet _ hrest]
    rfl
  · rw [not_exists] at hcomment
    have hsingle : ∀ d ∈ [c], d ∈ alphabet := fun d hd => List.mem_singleton.mp hd ▸ hc hcomment
    by_cases hunexpected : ∃ d, e = unexpected d
    · obtain ⟨d, rfl⟩ := hunexpected
      have hfirst : ofChars ((unexpected d).chars ++ [c]) = unexpected d :: ofChars [c] :=
        ofChars_of_fits hfits
      rw [hfirst, collect, collect_diagnostic?_of_alphabet _ hsingle]
      rfl
    · rw [not_exists] at hunexpected
      have hall : ∀ d ∈ e.chars ++ [c], d ∈ alphabet := by
        intro d hd
        rcases List.mem_append.mp hd with hd | hd
        · exact mem_alphabet_of_mem_chars hfits hcomment hunexpected hd
        · exact hsingle d hd
      rw [collect_diagnostic?_of_alphabet before hall]
      cases e with
      | comment body => exact absurd rfl (hcomment body)
      | unexpected d => exact absurd rfl (hunexpected d)
      | _ => rfl

/-- **One more character.** A character that is added to a text adds its diagnostic if it is out of
place, and otherwise nothing. -/
theorem reports_concat (cs : List Char) (c : Char) :
    reports (cs ++ [c]) =
      reports cs ++ if OutOfPlace cs c then
        [{ line := lineAfter cs, message := "Unexpected character: " ++ String.singleton c }]
      else [] := by
  by_cases hplace : OutOfPlace cs c
  · rw [if_pos hplace, reports, ofChars_of_outOfPlace hplace [], ofChars_nil, collect_append,
      text_ofChars]
    rfl
  · rw [if_neg hplace, List.append_nil]
    rcases eq_nil_or_last cs with rfl | ⟨init, e, hlast, rest, hfits⟩
    · have hc : c ∈ alphabet := by
        by_contra hc
        exact hplace ⟨hc, by decide⟩
      have hone : ∀ d ∈ [c], d ∈ alphabet := fun d hd => List.mem_singleton.mp hd ▸ hc
      rw [List.nil_append, reports, collect_diagnostic?_of_alphabet [] hone, reports, ofChars_nil]
      rfl
    · have hc : (∀ body, e ≠ comment body) → c ∈ alphabet := by
        intro hcomment
        by_contra hc
        refine hplace ⟨hc, fun hslashes => ?_⟩
        obtain ⟨init', body, hlast'⟩ := infix_last_iff.mp hslashes
        rw [hlast] at hlast'
        exact hcomment body (List.singleton_inj.mp (List.append_inj_right' hlast' rfl))
      rw [reports, ofChars_append hlast, collect_append, collect_diagnostic?_append hfits hc,
        ← collect_append, ← hlast]
      rfl

-- A character that is added comes last, and changes nothing for those before it.
theorem misplaced_concat (cs : List Char) (c : Char) :
    misplaced (cs ++ [c]) = misplaced cs ++ if OutOfPlace cs c then [(c, cs.length)] else [] := by
  have hbefore : cs.zipIdx.filter (fun x => decide (OutOfPlace ((cs ++ [c]).take x.2) x.1)) =
      misplaced cs := by
    apply List.filter_congr
    intro x hx
    have hlt : x.2 < 0 + cs.length := (List.mem_zipIdx hx).2.1
    rw [List.take_append_of_le_length (by omega)]
  rw [misplaced, List.zipIdx_append, List.filter_append, hbefore, List.zipIdx_singleton,
    List.filter_cons, Nat.zero_add, List.take_left]
  simp

-- What is said of a character depends on the text before it only.
theorem diagnosticAt_concat {x : Char × Nat} (hx : x ∈ misplaced cs) (c : Char) :
    diagnosticAt (cs ++ [c]) x = diagnosticAt cs x := by
  have hlt : x.2 < 0 + cs.length := (List.mem_zipIdx (List.mem_filter.mp hx).1).2.1
  rw [diagnosticAt, diagnosticAt, List.take_append_of_le_length (by omega)]

/-- **Diagnostics by position.** The diagnostics of a text are those of its characters out of place,
each of them once and in their order. -/
theorem reports_eq_map_misplaced (cs : List Char) :
    reports cs = (misplaced cs).map (diagnosticAt cs) := by
  induction cs using List.reverseRecOn with
  | nil =>
    rw [reports, ofChars_nil]
    rfl
  | append_singleton cs c ih =>
    have hbefore : (misplaced cs).map (diagnosticAt (cs ++ [c])) =
        (misplaced cs).map (diagnosticAt cs) :=
      List.map_congr_left fun x hx => diagnosticAt_concat hx c
    rw [reports_concat, misplaced_concat, List.map_append, hbefore, ← ih]
    split
    · rw [List.map_singleton, diagnosticAt, List.take_left]
    · rfl

theorem reports_ne_nil_iff (cs : List Char) :
    reports cs ≠ [] ↔ ∃ c position, cs[position]? = some c ∧ OutOfPlace (cs.take position) c := by
  rw [reports_eq_map_misplaced, Ne, List.map_eq_nil_iff]
  constructor
  · intro hne
    obtain ⟨x, hx⟩ := List.exists_mem_of_ne_nil _ hne
    exact ⟨x.1, x.2, mem_misplaced_iff.mp hx⟩
  · intro ⟨c, position, h⟩
    exact List.ne_nil_of_mem (mem_misplaced_iff.mpr h)

end LoxLexer
