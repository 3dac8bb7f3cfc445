import LoxLexer.Proofs.Element.OutOfPlace
import LoxLexer.Proofs.Scan.Append
import Mathlib.Data.List.Chain

/-!
# Punctuators side by side

Punctuators written one after another, with nothing between them, are found again by a scan exactly
if no two neighbours merge (`findings_packed`). What decides is whether the punctuators are the cut
of their text: they are if each fits before the next (`cut_packed_iff`), and nothing else can be
found in the text if they are found, since they take up all of it (`eq_map_punctuator_of_text_eq`).
-/

namespace LoxLexer

namespace Punctuator

/-- Two neighbours are read as something else: an equals sign goes to the operator before it, and
two slashes open a comment. -/
def Merges (p q : Punctuator) : Prop :=
  p ∈ [bang, equal, less, greater] ∧ q ∈ [equal, equalEqual] ∨ p = slash ∧ q = slash

instance : DecidableRel Merges := fun p q =>
  inferInstanceAs (Decidable (p ∈ [bang, equal, less, greater] ∧ q ∈ [equal, equalEqual]
    ∨ p = slash ∧ q = slash))

theorem head?_spelling_eq_equal_iff (q : Punctuator) :
    q.spelling.toList.head? = some '=' ↔ q ∈ [equal, equalEqual] := by
  cases q <;> decide

theorem head?_spelling_eq_slash_iff (q : Punctuator) :
    q.spelling.toList.head? = some '/' ↔ q = slash := by
  cases q <;> decide

end Punctuator

open Element

variable {p q : Punctuator} {ps : List Punctuator} {es : List Element}

/-! ## 1. The text -/

/-- The text of punctuators that stand side by side. -/
def packed (ps : List Punctuator) : String :=
  String.join (ps.map Punctuator.spelling)

theorem toList_packed (ps : List Punctuator) :
    (packed ps).toList = Element.text (ps.map punctuator) := by
  induction ps with
  | nil => rfl
  | cons p ps ih =>
    rw [packed, List.map_cons, String.join_cons, String.toList_append, ← packed, ih, List.map_cons,
      text_cons, chars]

theorem mem_alphabet_of_mem_packed {c : Char} (h : c ∈ Element.text (ps.map punctuator)) :
    c ∈ alphabet ∧ c ≠ '\n' := by
  obtain ⟨e, he, hc⟩ := List.mem_flatMap.mp h
  obtain ⟨p, -, rfl⟩ := List.mem_map.mp he
  have hall : p.spelling.toList.all (fun c => c ∈ alphabet ∧ c ≠ '\n') = true := by
    cases p <;> decide
  exact of_decide_eq_true (List.all_eq_true.mp hall c hc)

/-! ## 2. Neighbours -/

-- A punctuator fits before another one exactly if the two do not merge.
theorem fits_spelling_append_iff (p q : Punctuator) (rest : List Char) :
    (punctuator p).Fits (q.spelling.toList ++ rest) ↔ ¬ p.Merges q := by
  have hhead : (q.spelling.toList ++ rest).head? = q.spelling.toList.head? := by
    cases q <;> rfl
  rw [Fits, hhead]
  cases p <;>
    simp [Punctuator.growsWith?, Punctuator.Merges, Punctuator.head?_spelling_eq_equal_iff,
      Punctuator.head?_spelling_eq_slash_iff]

/-- **Cuts.** Punctuators are the cut of their text exactly if no two neighbours merge. -/
theorem cut_packed_iff (ps : List Punctuator) :
    Cut (ps.map punctuator) (Element.text (ps.map punctuator)) ↔
      ps.IsChain fun p q => ¬ p.Merges q := by
  induction ps with
  | nil => exact iff_of_true .nil .nil
  | cons p ps ih =>
    have hcons : Cut ((p :: ps).map punctuator) (Element.text ((p :: ps).map punctuator)) ↔
        (punctuator p).Fits (Element.text (ps.map punctuator))
          ∧ Cut (ps.map punctuator) (Element.text (ps.map punctuator)) := by
      constructor
      · intro h
        have hfirst : Cut ([] ++ punctuator p :: ps.map punctuator) _ := h
        exact hfirst.split.2
      · intro h
        exact .cons h.1 h.2
    rw [hcons, ih]
    cases ps with
    | nil => exact iff_of_true ⟨fits_nil p, .nil⟩ (.singleton p)
    | cons q ps =>
      rw [List.map_cons, text_cons, chars, fits_spelling_append_iff, List.isChain_cons_cons]

/-! ## 3. The punctuators that are found -/

def Element.punctuator? : Element → Option Punctuator
  | punctuator p => some p
  | _ => none

theorem map_kind_collect (before : List Char) (es : List Element) :
    (collect token? before es).map Token.kind =
      (es.filterMap punctuator?).map Token.Kind.punctuator := by
  induction es generalizing before with
  | nil => rfl
  | cons e es ih =>
    rw [collect, List.map_append, ih]
    cases e <;> rfl

theorem length_text_punctuators_le (es : List Element) :
    (Element.text ((es.filterMap punctuator?).map punctuator)).length ≤ (Element.text es).length := by
  induction es with
  | nil => exact Nat.le_refl _
  | cons e es ih =>
    rw [text_cons, List.length_append]
    cases e with
    | punctuator p =>
      have hfirst : (punctuator p :: es).filterMap punctuator? = p :: es.filterMap punctuator? := rfl
      rw [hfirst, List.map_cons, text_cons, List.length_append]
      omega
    | _ => exact Nat.le_add_left_of_le ih

-- If the punctuators among some elements take up all of the text, there are no other elements.
theorem eq_map_punctuator_of_text_eq
    (h : (Element.text es).length ≤
      (Element.text ((es.filterMap punctuator?).map punctuator)).length) :
    es = (es.filterMap punctuator?).map punctuator := by
  induction es with
  | nil => rfl
  | cons e es ih =>
    have hle := length_text_punctuators_le es
    have hpos : 0 < e.chars.length := List.length_pos_iff.mpr e.chars_ne_nil
    rw [text_cons, List.length_append] at h
    cases e with
    | punctuator p =>
      have hfirst : (punctuator p :: es).filterMap punctuator? = p :: es.filterMap punctuator? := rfl
      rw [hfirst, List.map_cons, text_cons, List.length_append] at h
      rw [hfirst, List.map_cons, ← ih (by omega)]
    | _ =>
      have hothers : (Element.text es).length < (Element.text es).length := by
        refine Nat.lt_of_lt_of_le ?_ (h.trans hle)
        omega
      omega

-- The punctuators found in the text of punctuators are these exactly if no two neighbours merge.
theorem filterMap_ofChars_packed_iff (ps : List Punctuator) :
    (ofChars (Element.text (ps.map punctuator))).filterMap punctuator? = ps ↔
      ps.IsChain fun p q => ¬ p.Merges q := by
  rw [← cut_packed_iff, cut_iff]
  constructor
  · intro h
    have hlength : (Element.text (ofChars (Element.text (ps.map punctuator)))).length ≤
        (Element.text (((ofChars (Element.text (ps.map punctuator))).filterMap punctuator?).map
          punctuator)).length := by
      rw [h, text_ofChars]
    have hall := eq_map_punctuator_of_text_eq hlength
    rw [h] at hall
    exact hall.symm
  · intro h
    rw [← h, List.filterMap_map]
    exact List.filterMap_some

/-! ## 4. Scans -/

-- The tokens of a text without a newline are on the line on which it begins.
theorem line_of_mem_tokens {before : List Char} {t : Token} (hline : '\n' ∉ Element.text es)
    (h : t ∈ Element.tokens before es) : t.line = lineAfter before := by
  induction es generalizing before with
  | nil =>
    rw [Element.tokens, List.mem_singleton] at h
    rw [h, Token.endOfText]
  | cons e es ih =>
    rw [text_cons, List.mem_append, not_or] at hline
    rw [Element.tokens, List.mem_append] at h
    rcases h with hfirst | hrest
    · cases e with
      | punctuator p =>
        rw [token?, Option.toList_some, List.mem_singleton] at hfirst
        rw [hfirst, Token.ofPunctuator]
      | _ => cases hfirst
    · rw [ih hline.2 hrest, lineAfter_append_of_notMem before hline.1]

/-- **Punctuators side by side.** The scan of punctuators written without anything between them
finds these punctuators, followed by the end of the text, exactly if no two neighbours merge.
Whatever it finds is on the first line, and nothing is reported. -/
theorem findings_packed (options : Options) (ps : List Punctuator) :
    ((findings options (packed ps)).tokens.map Token.kind =
          ps.map Token.Kind.punctuator ++ [.eof]
        ↔ ps.IsChain fun p q => ¬ p.Merges q)
      ∧ (∀ t ∈ (findings options (packed ps)).tokens, t.line = 1)
      ∧ (findings options (packed ps)).diagnostics = [] := by
  have hinjective : Function.Injective Token.Kind.punctuator := fun _ _ h => by injection h
  refine ⟨?_, fun t ht => ?_, ?_⟩
  · rw [findings_eq, List.map_append, map_kind_collect, toList_packed,
      ← filterMap_ofChars_packed_iff, ← hinjective.list_map.eq_iff]
    exact List.append_left_inj [Token.Kind.eof]
  · have hline : '\n' ∉ Element.text (ofChars (packed ps).toList) := by
      rw [text_ofChars, toList_packed]
      exact fun hmem => (mem_alphabet_of_mem_packed hmem).2 rfl
    rw [findings, scan_tokens] at ht
    exact line_of_mem_tokens hline ht
  · rw [findings_diagnostics, reports, toList_packed]
    exact collect_diagnostic?_of_alphabet [] fun c hc => (mem_alphabet_of_mem_packed hc).1

-- The bang takes one of the two equals signs, and the slashes take the star into a comment.
example : (findings {} (packed [.less, .bang, .equalEqual, .slash, .slash, .star])).tokens.map
    Token.kind = [.punctuator .less, .punctuator .bangEqual, .punctuator .equal, .eof] := by
  decide +kernel

end LoxLexer
