import LoxLexer.Proofs.Scan.Packed
import Mathlib.Data.Nat.Init

/-!
# Runs of equals signs

Equals signs pair from the left. How a run of them is read depends on the one character before it:
behind another sign that pairs, the first equals sign of the run goes to that sign
(`scan_equalsRun`). Nothing further away has an influence, because the text before the run is read
as it is read without the run (`ofChars_append_of_apart`), and the run ends in an operator that fits
before whatever comes next (`ofChars_equals_append`).
-/

namespace LoxLexer

open Element

/-- The element stands in a text behind `start` characters. -/
def Element.StandsAt (e : Element) (start : Nat) (s : String) : Prop :=
  ∃ es fs, Cut (es ++ e :: fs) s.toList ∧ (Element.text es).length = start

/-- The character at a position of a text is part of the element. -/
def Element.Covers (e : Element) (position : Nat) (s : String) : Prop :=
  ∃ start, e.StandsAt start s ∧ start ≤ position ∧ position < start + e.chars.length

/-- A text has `n` equals signs in a row behind `before`, with no further one on either side, and
the first of them is not part of a comment. -/
structure EqualsRun (source before : String) (n : Nat) (after : String) : Prop where
  source_eq : source = before ++ String.ofList (List.replicate n '=') ++ after
  pos : 0 < n
  getLast?_before : before.toList.getLast? ≠ some '='
  head?_after : after.toList.head? ≠ some '='
  not_covered : ∀ body, ¬ (comment body).Covers before.length source

/-- The operators that `n` equals signs are read as by themselves. -/
def equalsOperators (n : Nat) : List Punctuator :=
  List.replicate (n / 2) .equalEqual ++ List.replicate (n % 2) .equal

/-- The other signs that an equals sign pairs with, and the operators they make. -/
def pairingSigns : List (Char × Punctuator) :=
  [('!', .bangEqual), ('<', .lessEqual), ('>', .greaterEqual)]

/-- In a text, the punctuators `ps` stand side by side between `s` and `t`, and nothing else reaches
in between. A scan of the text finds what it finds in `s`, then exactly these punctuators, and then
what it finds in `t`. -/
structure FoundBetween (options : Options) (log : Log) (source s : String) (ps : List Punctuator)
    (t : String) : Prop where
  source_eq : source = s ++ packed ps ++ t
  cut : ∃ es fs, Cut es s.toList ∧ Cut fs t.toList
    ∧ Cut (es ++ ps.map punctuator ++ fs) source.toList
  /-- An element that overlaps the middle part is one of the punctuators, at its own place. -/
  only : ∀ e start, e.StandsAt start source → start < s.length + (packed ps).length →
    s.length < start + e.chars.length →
      ∃ k p, ps[k]? = some p ∧ e = punctuator p ∧ start = s.length + (packed (ps.take k)).length
  tokens_eq : (scan options source log).tokens =
    (findings options s).body
      ++ ps.map (fun p => .ofPunctuator p p.spelling (1 + newlines s))
      ++ (findings options t).body.map (Token.raise (newlines s))
      ++ [.endOfText (1 + newlines source)]

variable {options : Options} {log : Log} {source before after s t : String} {n start : Nat}
variable {es fs ms init later : List Element} {e : Element} {ps : List Punctuator} {pair : Punctuator}
variable {c : Char} {rest : List Char}

/-! ## 1. Characters in comments -/

-- The text before a character of a comment that is no slash holds the two slashes of the comment.
theorem endsInComment_of_covers {body : List Char} (hhead : t.toList.head? = some c)
    (hslash : c ≠ '/') (h : (comment body).Covers s.length (s ++ t)) : EndsInComment s := by
  obtain ⟨tail, ht⟩ := List.head?_eq_some_iff.mp hhead
  obtain ⟨_, ⟨es, fs, hcut, rfl⟩, hle, hlt⟩ := h
  obtain ⟨-, ⟨hbody, -⟩, -⟩ := hcut.split
  have htext : s.toList ++ c :: tail =
      Element.text es ++ ('/' :: '/' :: body ++ Element.text fs) := by
    rw [← ht, ← String.toList_append, ← hcut.text_eq, text_append, text_cons]
    rfl
  rw [← String.length_toList] at hle hlt
  obtain ⟨part, hs⟩ : Element.text es <+: s.toList :=
    List.prefix_of_prefix_length_le ⟨_, htext.symm⟩ (List.prefix_append ..) hle
  rw [← hs, List.append_assoc, List.append_cancel_left_eq] at htext
  rw [← hs, chars, List.length_append, List.length_cons, List.length_cons] at hlt
  -- With fewer than two characters of the comment before it, the character would be a slash.
  rcases part with _ | ⟨a, _ | ⟨b, part⟩⟩
  · cases htext
    contradiction
  · cases htext
    contradiction
  · simp only [List.cons_append, List.cons.injEq] at htext
    obtain ⟨rfl, rfl, htext⟩ := htext
    have hpart : part <+: body := by
      apply List.prefix_of_prefix_length_le ⟨_, htext⟩ (List.prefix_append ..)
      simp only [List.length_cons] at hlt
      omega
    have hline : '\n' ∉ '/' :: '/' :: part := by
      simpa using fun h => hbody (hpart.subset h)
    rw [EndsInComment, ← hs, Line.last_append _ hline]
    exact ⟨Line.last (Element.text es), part, by simp⟩

-- A comment takes in a character that follows it and is no newline.
theorem exists_comment_covers (hhead : t.toList.head? = some c) (hnewline : c ≠ '\n')
    (h : EndsInComment s) : ∃ body, (comment body).Covers s.length (s ++ t) := by
  obtain ⟨tail, ht⟩ := List.head?_eq_some_iff.mp hhead
  obtain ⟨init, body, hlast⟩ := endsInComment_iff.mp h
  obtain ⟨_, hbody, -⟩ := exists_fits_of_last hlast
  have hsingle : '\n' ∉ [c] := by simpa using hnewline.symm
  have hfirst : Line.head t.toList = c :: Line.head tail := by
    rw [ht]
    exact Line.head_append hsingle tail
  have hcut : Cut (init ++ comment (body ++ Line.head t.toList) :: ofChars (Line.rest t.toList))
      (s ++ t).toList := by
    rw [cut_iff, String.toList_append, ofChars_append hlast, ofChars_comment_append hbody]
  have hlength : s.length = (Element.text init).length + (body.length + 2) := by
    rw [← String.length_toList, toList_eq_of_last hlast, List.length_append]
    rfl
  refine ⟨body ++ Line.head t.toList, _, ⟨init, _, hcut, rfl⟩, by omega, ?_⟩
  simp only [chars, hfirst, List.length_append, List.length_cons]
  omega

/-- **Runs in the text.** Which equals signs are a run outside comments can be told from the text. -/
theorem equalsRun_iff : EqualsRun source before n after ↔
    source = before ++ String.ofList (List.replicate n '=') ++ after ∧ 0 < n
      ∧ before.toList.getLast? ≠ some '=' ∧ after.toList.head? ≠ some '='
      ∧ ¬ EndsInComment before := by
  have hcovered (hn : 0 < n) :
      (∃ body, (comment body).Covers before.length
        (before ++ String.ofList (List.replicate n '=') ++ after)) ↔ EndsInComment before := by
    have hhead : (String.ofList (List.replicate n '=') ++ after).toList.head? = some '=' := by
      rw [String.toList_append, String.toList_ofList, ← Nat.sub_add_cancel hn, List.replicate_succ]
      rfl
    rw [String.append_assoc]
    exact ⟨fun ⟨_, h⟩ => endsInComment_of_covers hhead (by decide) h,
      exists_comment_covers hhead (by decide)⟩
  constructor
  · intro ⟨hsource, hn, hbefore, hafter, hcomment⟩
    subst hsource
    exact ⟨rfl, hn, hbefore, hafter, by rwa [← hcovered hn, not_exists]⟩
  · rintro ⟨rfl, hn, hbefore, hafter, hcomment⟩
    exact ⟨rfl, hn, hbefore, hafter, by rwa [← hcovered hn, not_exists] at hcomment⟩

theorem EqualsRun.not_endsInComment (h : EqualsRun source before n after) :
    ¬ EndsInComment before :=
  (equalsRun_iff.mp h).2.2.2.2

/-! ## 2. Equals signs by themselves -/

-- Two equals signs more are one operator more, in front.
theorem equalsOperators_add_two (n : Nat) :
    equalsOperators (n + 2) = .equalEqual :: equalsOperators n := by
  rw [equalsOperators, equalsOperators, Nat.add_div_right n (by decide), Nat.add_mod_right,
    List.replicate_succ, List.cons_append]

/-- **Pairs from the left.** Equals signs that no further one follows are read as pairs, and as a
single one at the end if their number is odd. -/
theorem ofChars_equals_append (n : Nat) (hrest : rest.head? ≠ some '=') :
    ofChars (List.replicate n '=' ++ rest) =
      (equalsOperators n).map punctuator ++ ofChars rest := by
  -- The induction takes off one pair at a time, which fits whatever follows it; only a single sign
  -- has to look at the rest.
  induction n using Nat.twoStepInduction with
  | zero => rfl
  | one =>
    have hfits : (punctuator .equal).Fits rest := .inr hrest
    exact ofChars_of_fits hfits
  | more n ih _ =>
    have hfits : (punctuator .equalEqual).Fits (List.replicate n '=' ++ rest) := .inl rfl
    rw [equalsOperators_add_two, List.map_cons, List.cons_append, ← ih]
    exact ofChars_of_fits hfits

/-! ## 3. Punctuators between two texts -/

theorem collect_token?_punctuators (cs : List Char) (ps : List Punctuator) :
    collect token? cs (ps.map punctuator) =
      ps.map fun p => .ofPunctuator p p.spelling (lineAfter cs) := by
  induction ps generalizing cs with
  | nil => rfl
  | cons p ps ih =>
    rw [List.map_cons, collect, ih, chars, lineAfter_append_of_notMem cs p.newline_notMem_spelling]
    rfl

-- Of elements in three parts, one that overlaps the middle part belongs to it.
theorem exists_of_overlaps (hsame : init ++ e :: later = es ++ (ms ++ fs))
    (hstart : (Element.text init).length < (Element.text es).length + (Element.text ms).length)
    (hend : (Element.text es).length < (Element.text init).length + e.chars.length) :
    ∃ front back, ms = front ++ e :: back
      ∧ (Element.text init).length = (Element.text es).length + (Element.text front).length := by
  rcases List.append_eq_append_iff.mp hsame with ⟨part, rfl, hpart⟩ | ⟨front, rfl, hfront⟩
  · cases part with
    | nil =>
      -- The element is the first of the middle part, which is not empty.
      cases ms with
      | nil => simp at hstart
      | cons a back =>
        obtain ⟨rfl, -⟩ := List.cons.inj hpart
        exact ⟨[], back, rfl, by simp⟩
    | cons a part =>
      obtain ⟨rfl, -⟩ := List.cons.inj hpart
      rw [text_append, text_cons, List.length_append, List.length_append] at hend
      omega
  · rw [text_append, List.length_append] at hstart ⊢
    rcases List.append_eq_append_iff.mp hfront with ⟨more, rfl, -⟩ | ⟨back, rfl, hback⟩
    · rw [text_append, List.length_append] at hstart
      omega
    · cases back with
      | nil =>
        rw [List.append_nil] at hstart
        omega
      | cons a back =>
        obtain ⟨rfl, -⟩ := List.cons.inj hback
        exact ⟨front, back, rfl, rfl⟩

-- An element that overlaps some punctuators of a cut is one of them.
theorem exists_of_standsAt (hcut : Cut (es ++ (ps.map punctuator ++ fs)) source.toList)
    (hstands : e.StandsAt start source)
    (hstart : start < (Element.text es).length + (Element.text (ps.map punctuator)).length)
    (hend : (Element.text es).length < start + e.chars.length) :
    ∃ k p, ps[k]? = some p ∧ e = punctuator p
      ∧ start = (Element.text es).length + (Element.text ((ps.take k).map punctuator)).length := by
  obtain ⟨init, later, hcut', rfl⟩ := hstands
  have hsame : init ++ e :: later = es ++ (ps.map punctuator ++ fs) := by
    rw [cut_iff.mp hcut, cut_iff.mp hcut']
  obtain ⟨_, _, hps, hlength⟩ := exists_of_overlaps hsame hstart hend
  obtain ⟨front, _, rfl, rfl, hback⟩ := List.map_eq_append_iff.mp hps
  obtain ⟨p, back, rfl, rfl, -⟩ := List.map_eq_cons_iff.mp hback
  refine ⟨front.length, p, ?_, rfl, ?_⟩
  · rw [List.getElem?_append_right (Nat.le_refl _), Nat.sub_self]
    rfl
  · rw [List.take_left, hlength]

theorem length_packed (ps : List Punctuator) :
    (packed ps).length = (Element.text (ps.map punctuator)).length := by
  rw [← String.length_toList, toList_packed]

/-- **Between two texts.** It is enough that the punctuators are elements of the whole text, between
the elements of the two others. -/
theorem foundBetween_of_ofChars (options : Options) (log : Log)
    (h : ofChars source.toList = ofChars s.toList ++ (ps.map punctuator ++ ofChars t.toList)) :
    FoundBetween options log source s ps t where
  source_eq := by
    have htext := congrArg Element.text h
    rw [text_append, text_append, text_ofChars, text_ofChars, text_ofChars, ← toList_packed] at htext
    rw [← String.toList_inj, htext, String.toList_append, String.toList_append, List.append_assoc]
  cut := by
    refine ⟨_, _, cut_ofChars s.toList, cut_ofChars t.toList, ?_⟩
    rw [cut_iff, h, List.append_assoc]
  only e start hstands hstart hend := by
    have hlength : s.length = (Element.text (ofChars s.toList)).length := by
      rw [text_ofChars, String.length_toList]
    simp only [length_packed, hlength] at hstart hend ⊢
    exact exists_of_standsAt (cut_iff.mpr h.symm) hstands hstart hend
  tokens_eq := by
    -- The punctuators are on the line on which `s` ends, and `t` goes on there.
    have hcount : (s.toList ++ Element.text (ps.map punctuator)).count '\n' = newlines s := by
      have hline : '\n' ∉ Element.text (ps.map punctuator) :=
        fun hmem => (mem_alphabet_of_mem_packed hmem).2 rfl
      rw [List.count_append, List.count_eq_zero_of_not_mem hline]
      rfl
    have hraise := collect_token?_raise (s.toList ++ Element.text (ps.map punctuator)) []
      (ofChars t.toList)
    rw [List.append_nil, hcount] at hraise
    rw [scan_tokens, tokens_eq_collect, text_ofChars, h, collect_append, collect_append,
      text_ofChars, List.nil_append, List.nil_append, collect_token?_punctuators, hraise,
      findings_body, findings_body, ← List.append_assoc]
    rfl

/-! ## 4. Runs -/

-- Behind a sign that does not pair, or behind nothing, a run is read by itself.
theorem EqualsRun.ofChars_alone (h : EqualsRun source before n after)
    (hsign : ∀ x ∈ pairingSigns, before.toList.getLast? ≠ some x.1) :
    ofChars source.toList =
      ofChars before.toList ++ ((equalsOperators n).map punctuator ++ ofChars after.toList) := by
  rw [h.source_eq, String.toList_append, String.toList_append, String.toList_ofList,
    List.append_assoc, ← ofChars_equals_append n h.head?_after]
  apply ofChars_append_of_apart h.not_endsInComment
  · intro _ c hc
    by_cases hequal : c = '='
    · exact hequal ▸ h.getLast?_before
    · obtain ⟨pair, hpair⟩ : ∃ pair, (c, pair) ∈ pairingSigns := by
        simp only [List.mem_cons, List.not_mem_nil, or_false] at hc
        rcases hc with rfl | rfl | rfl | rfl
        · exact ⟨.bangEqual, by decide⟩
        · contradiction
        · exact ⟨.lessEqual, by decide⟩
        · exact ⟨.greaterEqual, by decide⟩
      exact hsign _ hpair
  · rw [← Nat.sub_add_cancel h.pos, List.replicate_succ]
    intro hslash
    cases hslash

theorem spelling_of_mem_pairingSigns (h : (c, pair) ∈ pairingSigns) :
    pair.spelling.toList = [c, '='] ∧ pair.growsWith? = none ∧ c ≠ '=' ∧ c ≠ '/' ∧ c ≠ '\n' := by
  simp only [pairingSigns, List.mem_cons, Prod.mk.injEq, List.not_mem_nil, or_false] at h
  rcases h with ⟨rfl, rfl⟩ | ⟨rfl, rfl⟩ | ⟨rfl, rfl⟩ <;> decide

-- Behind another sign that pairs, the first equals sign goes to that sign.
theorem EqualsRun.ofChars_paired (h : EqualsRun source (s ++ String.singleton c) n after)
    (hpair : (c, pair) ∈ pairingSigns) :
    ofChars source.toList =
      ofChars s.toList
        ++ ((pair :: equalsOperators (n - 1)).map punctuator ++ ofChars after.toList) := by
  obtain ⟨hspelling, hgrown, hequal, hslash, hnewline⟩ := spelling_of_mem_pairingSigns hpair
  have hrun : List.replicate n '=' = '=' :: List.replicate (n - 1) '=' := by
    rw [← List.replicate_succ, Nat.sub_add_cancel h.pos]
  have hfits : (punctuator pair).Fits (List.replicate (n - 1) '=' ++ after.toList) := .inl hgrown
  have hcut := ofChars_of_fits hfits
  rw [ofChars_equals_append _ h.head?_after, chars, hspelling] at hcut
  have hsource : source.toList =
      s.toList ++ ([c, '='] ++ (List.replicate (n - 1) '=' ++ after.toList)) := by
    simp [h.source_eq, hrun]
  rw [List.map_cons, List.cons_append, ← hcut, hsource]
  apply ofChars_append_of_seam
  · -- Two slashes in the last line of `s` would be in front of the sign as well.
    intro hslashes
    apply h.not_endsInComment
    have hline : '\n' ∉ [c] := by simpa using hnewline.symm
    rw [EndsInComment, String.toList_append, String.toList_singleton, Line.last_append _ hline]
    exact hslashes.trans (List.prefix_append ..).isInfix
  · simpa using hequal
  · intro hhead
    exact absurd (Option.some.inj hhead) hslash

/-- **Runs of equals signs.** Behind one of the other signs that pair, the first equals sign of a run
outside comments is the second half of one operator, and the signs after it are read as half as many
pairs, followed by a single one if their number is odd. Behind any other character, and at the
beginning of a text, all signs of the run are read like this. No other token covers one of the
signs, and the text around the run is read as it is by itself. -/
theorem scan_equalsRun (options : Options) (log : Log) (h : EqualsRun source before n after) :
    (∀ c pair, (c, pair) ∈ pairingSigns → before.toList.getLast? = some c →
        ∃ s, before = s ++ String.singleton c
          ∧ FoundBetween options log source s (pair :: equalsOperators (n - 1)) after)
      ∧ ((∀ x ∈ pairingSigns, before.toList.getLast? ≠ some x.1) →
        FoundBetween options log source before (equalsOperators n) after) := by
  constructor
  · intro c pair hpair hlast
    obtain ⟨init, hinit⟩ := List.getLast?_eq_some_iff.mp hlast
    have hbefore : before = String.ofList init ++ String.singleton c := by
      rw [← String.toList_inj, hinit]
      simp
    subst hbefore
    exact ⟨_, rfl, foundBetween_of_ofChars options log (h.ofChars_paired hpair)⟩
  · intro hsign
    exact foundBetween_of_ofChars options log (h.ofChars_alone hsign)

-- Four signs behind a smaller-than sign, with a slash on one side and a comment on the other, and
-- three signs that another one is not far from.
theorem scan_equalsRun_each_way :
    EqualsRun "//\n/<====//=" "//\n/<" 4 "//="
      ∧ FoundBetween {} .empty "//\n/<====//=" "//\n/" [.lessEqual, .equalEqual, .equal] "//="
      ∧ EqualsRun "=-===" "=-" 3 ""
      ∧ FoundBetween {} .empty "=-===" "=-" [.equalEqual, .equal] "" := by
  have hless : EqualsRun "//\n/<====//=" "//\n/<" 4 "//=" := by
    rw [equalsRun_iff]
    unfold EndsInComment
    decide +kernel
  have hminus : EqualsRun "=-===" "=-" 3 "" := by
    rw [equalsRun_iff]
    unfold EndsInComment
    decide +kernel
  refine ⟨hless, ?_, hminus, ?_⟩
  · obtain ⟨s, hs, hfound⟩ := (scan_equalsRun {} .empty hless).1 '<' .lessEqual (by decide) rfl
    obtain rfl : s = "//\n/" := (String.append_left_inj (String.singleton '<')).mp hs.symm
    exact hfound
  · exact (scan_equalsRun {} .empty hminus).2 (by decide)

end LoxLexer
