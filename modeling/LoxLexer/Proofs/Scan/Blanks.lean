import LoxLexer.Proofs.Element.Lines
import LoxLexer.Proofs.Scan.Append

/-!
# Blanks put into a text

Blanks that are put into a text change what a scan finds exactly if they part the two characters of
an operator, or the two slashes that open a comment (`findings_insert_blanks`). Behind a comment the
blanks belong to it. Behind any other text they keep that text and the text after them apart, so
that the findings are those of both (`findings_append_blanks`); whether this makes a difference can
be told from the last element of the text before them (`insideOperator_iff`, `insideOpening_iff`).
-/

namespace LoxLexer

open Element

def IsBlank (c : Char) : Prop :=
  c = ' ' ∨ c = '\r' ∨ c = '\t'

instance : DecidablePred IsBlank := fun c =>
  inferInstanceAs (Decidable (c = ' ' ∨ c = '\r' ∨ c = '\t'))

variable {options : Options} {s t w : String} {es fs init : List Element} {e : Element}
variable {p pair : Punctuator} {c : Char} {cs ds tail : List Char}

/-! ## 1. Inside of an element -/

/-- The place between two texts is between the characters of an operator of two characters. -/
def InsideOperator (s t : String) : Prop :=
  ∃ es p fs, Cut (es ++ punctuator p :: fs) (s ++ t).toList ∧ p.spelling.length = 2
    ∧ s.length = (Element.text es).length + 1

/-- The place between two texts is between the two slashes that open a comment. -/
def InsideOpening (s t : String) : Prop :=
  ∃ es body fs, Cut (es ++ comment body :: fs) (s ++ t).toList
    ∧ s.length = (Element.text es).length + 1

-- A text that ends behind the first character of an element ends in the punctuator that this
-- character is by itself.
theorem ofChars_of_first (h : Cut (es ++ e :: fs) (s ++ t).toList)
    (hlength : s.length = (Element.text es).length + 1) (hp : p.spelling.toList = [c])
    (hchars : e.chars = c :: tail) :
    ofChars s.toList = es ++ [punctuator p] ∧ t.toList = tail ++ Element.text fs := by
  have htext : s.toList ++ t.toList = Element.text es ++ [c] ++ (tail ++ Element.text fs) := by
    rw [← String.toList_append, ← h.text_eq, text_append, text_cons, hchars]
    simp
  have hsame : s.toList.length = (Element.text es ++ [c]).length := by
    rw [String.length_toList, hlength, List.length_append, List.length_singleton]
  obtain ⟨hs, ht⟩ := List.append_inj htext hsame
  have hcut : Cut [punctuator p] [c] := by
    have hsingle : Cut [punctuator p] ((punctuator p).chars ++ []) := .cons (fits_nil p) .nil
    rwa [chars, hp, List.append_nil] at hsingle
  have hhead : (Element.text (e :: fs)).head? = [c].head? := by
    rw [text_cons, hchars]
    rfl
  exact ⟨(cut_iff.mp (hs ▸ h.swap hcut hhead)).symm, ht⟩

theorem Punctuator.withEqual?_length (h : p.withEqual? = some pair) :
    (∃ c, p.spelling.toList = [c] ∧ pair.spelling.toList = [c, '=']) ∧ pair.spelling.length = 2 := by
  cases p <;> cases h <;> exact ⟨⟨_, rfl, rfl⟩, rfl⟩

theorem Punctuator.exists_withEqual?_eq (h : p.spelling.length = 2) :
    ∃ single : Punctuator, single.withEqual? = some p := by
  cases p with
  | bangEqual => exact ⟨.bang, rfl⟩
  | equalEqual => exact ⟨.equal, rfl⟩
  | greaterEqual => exact ⟨.greater, rfl⟩
  | lessEqual => exact ⟨.less, rfl⟩
  | _ => cases h

theorem length_of_last (hlast : ofChars s.toList = init ++ [e]) (hchars : e.chars = [c]) :
    s.length = (Element.text init).length + 1 := by
  rw [← String.length_toList, toList_eq_of_last hlast, hchars, List.length_append,
    List.length_singleton]

/-- **Inside of an operator.** The text before the place ends in an operator of one character, and
an equals sign comes after it. -/
theorem insideOperator_iff : InsideOperator s t ↔ ∃ init p pair,
    ofChars s.toList = init ++ [punctuator p] ∧ p.withEqual? = some pair
      ∧ t.toList.head? = some '=' := by
  constructor
  · rintro ⟨es, pair, fs, hcut, htwo, hlength⟩
    obtain ⟨p, hp⟩ := Punctuator.exists_withEqual?_eq htwo
    obtain ⟨⟨c, hsingle, hpair⟩, -⟩ := Punctuator.withEqual?_length hp
    obtain ⟨hlast, ht⟩ := ofChars_of_first hcut hlength hsingle hpair
    exact ⟨es, p, pair, hlast, hp, by rw [ht]; rfl⟩
  · rintro ⟨init, p, pair, hlast, hp, hequal⟩
    obtain ⟨⟨c, hsingle, -⟩, htwo⟩ := Punctuator.withEqual?_length hp
    obtain ⟨tail, ht⟩ := List.head?_eq_some_iff.mp hequal
    refine ⟨init, pair, ofChars tail, ?_, htwo, length_of_last hlast hsingle⟩
    rw [cut_iff, String.toList_append, ht, ofChars_append hlast, ofChars_withEqual hp]

/-- **Inside of the opening of a comment.** The text before the place ends in a slash that does not
belong to a comment, and another slash comes after it. -/
theorem insideOpening_iff : InsideOpening s t ↔
    (∃ init, ofChars s.toList = init ++ [punctuator .slash]) ∧ t.toList.head? = some '/' := by
  constructor
  · rintro ⟨es, body, fs, hcut, hlength⟩
    obtain ⟨hlast, ht⟩ := ofChars_of_first (p := .slash) hcut hlength rfl rfl
    exact ⟨⟨es, hlast⟩, by rw [ht]; rfl⟩
  · rintro ⟨⟨init, hlast⟩, hslash⟩
    obtain ⟨tail, ht⟩ := List.head?_eq_some_iff.mp hslash
    refine ⟨init, Line.head tail, ofChars (Line.rest tail), ?_, length_of_last hlast rfl⟩
    rw [cut_iff, String.toList_append, ht, ofChars_append hlast, ofChars_slash_slash]

/-! ## 2. Blanks between two texts -/

theorem newline_notMem_of_isBlank (hw : ∀ c ∈ cs, IsBlank c) : '\n' ∉ cs := by
  intro hmem
  rcases hw _ hmem with h | h | h <;> cases h

theorem ofChars_blanks_append (hw : ∀ c ∈ cs, IsBlank c) (ds : List Char) :
    ofChars (cs ++ ds) = cs.map blank ++ ofChars ds := by
  induction cs with
  | nil => rfl
  | cons c cs ih =>
    rw [List.forall_mem_cons] at hw
    have hfirst : ofChars ((blank c).chars ++ (cs ++ ds)) = blank c :: ofChars (cs ++ ds) :=
      ofChars_of_fits hw.1
    rw [List.map_cons, List.cons_append, List.cons_append, ← ih hw.2, ← hfirst]
    rfl

-- Blanks keep a text that does not end in a comment apart from the text after them.
theorem ofChars_append_blanks_append (hcomment : ¬ ['/', '/'] <:+: Line.last ds)
    (hne : cs ≠ []) (hw : ∀ c ∈ cs, IsBlank c) (tail : List Char) :
    ofChars (ds ++ (cs ++ tail)) = ofChars ds ++ (cs.map blank ++ ofChars tail) := by
  obtain ⟨c, cs', rfl⟩ := List.exists_cons_of_ne_nil hne
  have hblank : IsBlank c := hw c List.mem_cons_self
  have hhead : ∀ d ∈ ['=', '/'], (c :: cs' ++ tail).head? ≠ some d := by
    intro d hd heq
    obtain rfl : c = d := Option.some.inj heq
    rcases hblank with rfl | rfl | rfl <;> simp at hd
  rw [ofChars_append_of_seam hcomment (hhead '=' (by simp)), ofChars_blanks_append hw]
  exact fun hslash => absurd hslash (hhead '/' (by simp))

theorem collect_append_blanks {α : Type} {f : List Char → Element → Option α} (hf : Skips f)
    (es : List Element) (cs : List Char) :
    collect f [] (es ++ cs.map blank) = collect f [] es := by
  have hblanks : collect f ([] ++ Element.text es) (cs.map blank) = [] := by
    apply collect_of_separates hf
    intro e he
    obtain ⟨c, -, rfl⟩ := List.mem_map.mp he
    trivial
  rw [collect_append, hblanks, List.append_nil]

theorem text_map_blank (cs : List Char) : Element.text (cs.map blank) = cs := by
  induction cs with
  | nil => rfl
  | cons c cs ih =>
    rw [List.map_cons, text_cons, ih]
    rfl

/-- **Blanks between two texts.** Behind a text that does not end in a comment, nothing is found but
what is found in this text and in the text after the blanks. -/
theorem findings_append_blanks (options : Options) (hcomment : ¬ EndsInComment s) (hne : w ≠ "")
    (hw : ∀ c ∈ w.toList, IsBlank c) (t : String) :
    findings options (s ++ (w ++ t)) = join options s t := by
  have hnil : w.toList ≠ [] := by simpa using hne
  have hcut : ofChars (s ++ (w ++ t)).toList =
      ofChars s.toList ++ w.toList.map blank ++ ofChars t.toList := by
    rw [String.toList_append, String.toList_append,
      ofChars_append_blanks_append hcomment hnil hw, List.append_assoc]
  rw [join, findings_body, ← collect_append_blanks skips_token? _ w.toList]
  apply findings_of_seam w.toList hcut
  · rw [text_append, text_ofChars, text_map_blank]
  · exact newline_notMem_of_isBlank hw
  · rw [collect_append_blanks skips_diagnostic?]
    rfl

-- Behind a text that ends in a comment, the blanks belong to the comment.
theorem findings_append_blanks_of_comment (options : Options) (hcomment : EndsInComment s)
    (hw : ∀ c ∈ w.toList, IsBlank c) (t : String) :
    findings options (s ++ (w ++ t)) = findings options (s ++ t) := by
  obtain ⟨init, body, hlast⟩ := endsInComment_iff.mp hcomment
  have hrest : fromNewline (w ++ t) = fromNewline t := by
    rw [fromNewline, String.toList_append, Line.rest_append (newline_notMem_of_isBlank hw),
      ← fromNewline]
  rw [findings_append_comment hlast, findings_append_comment hlast, hrest]

/-! ## 3. Texts that do not stay apart -/

theorem findings_ne_of_insideOperator (options : Options) (h : InsideOperator s t) :
    findings options (s ++ t) ≠ join options s t := by
  obtain ⟨init, p, pair, hlast, hp, hequal⟩ := insideOperator_iff.mp h
  obtain ⟨tail, htail⟩ := List.head?_eq_some_iff.mp hequal
  obtain rfl : t = "=" ++ String.ofList tail := by
    rw [← String.toList_inj, htail]
    simp
  obtain ⟨kept, line, hbody, hfindings⟩ :=
    findings_append_equal options hlast hp (String.ofList tail)
  -- The last token of the first text is another one.
  intro hsame
  have htokens := congrArg Findings.tokens hsame
  rw [hfindings, join, hbody] at htokens
  simp only [joinKept, List.append_assoc, List.append_cancel_left_eq, List.cons_append,
    List.cons.injEq] at htokens
  obtain rfl : pair = p := Token.Kind.punctuator.inj (congrArg Token.kind htokens.1)
  cases pair <;> cases hp

-- All that is found from the first newline on is found in the whole text.
theorem length_body_fromNewline_le (options : Options) (t : String) :
    (findings options (fromNewline t)).body.length ≤ (findings options t).body.length := by
  have hcut : ofChars t.toList = ofChars (Line.head t.toList) ++ ofChars (Line.rest t.toList) := by
    rw [← ofChars_append_of_ends _ (Line.ends_rest _), Line.head_append_rest]
  have hraise := collect_token?_raise (Line.head t.toList) [] (ofChars (Line.rest t.toList))
  rw [List.append_nil] at hraise
  rw [findings_body, findings_body, toList_fromNewline, hcut, collect_append, List.length_append,
    text_ofChars, List.nil_append, hraise, List.length_map]
  exact Nat.le_add_left ..

theorem findings_ne_of_insideOpening (options : Options) (h : InsideOpening s t) :
    findings options (s ++ t) ≠ join options s t := by
  obtain ⟨⟨init, hlast⟩, hslash⟩ := insideOpening_iff.mp h
  obtain ⟨kept, line, hbody, hfindings⟩ : ∃ kept line,
      (findings options s).body = kept ++ [.ofPunctuator .slash "/" line]
        ∧ findings options (s ++ t) = joinKept options kept s (fromNewline t) :=
    findings_append_slash hlast hslash
  -- The slash is missing, and nothing is found instead.
  intro hsame
  have hlength := congrArg (fun f => f.tokens.length) hsame
  have hle := length_body_fromNewline_le options t
  simp only [hfindings, join, hbody, joinKept, List.length_append, List.length_map,
    List.length_singleton] at hlength
  omega

-- Two texts stay apart if nothing is parted between them.
theorem findings_append_of_not_inside (options : Options) (hcomment : ¬ EndsInComment s)
    (hoperator : ¬ InsideOperator s t) (hopening : ¬ InsideOpening s t) :
    findings options (s ++ t) = join options s t := by
  apply findings_append_of_fits
  rw [String.toList_append]
  rcases eq_nil_or_last s.toList with hs | ⟨init, e, hlast, rest, hfits⟩
  · rw [hs, ofChars_nil, List.nil_append, List.nil_append]
  · apply ofChars_append_of_fits hlast
    apply fits_of_not_grows hfits (ne_comment_of_last hcomment hlast)
    · intro p pair he hp hequal
      exact hoperator (insideOperator_iff.mpr ⟨init, p, pair, he ▸ hlast, hp, hequal⟩)
    · intro he hslash
      exact hopening (insideOpening_iff.mpr ⟨⟨init, he ▸ hlast⟩, hslash⟩)

-- A text that ends in a comment does not end in the middle of an element that blanks could part.
theorem not_inside_of_endsInComment (hcomment : EndsInComment s) :
    ¬ InsideOperator s t ∧ ¬ InsideOpening s t := by
  obtain ⟨commented, body, hcommented⟩ := endsInComment_iff.mp hcomment
  have hlast : ∀ init p, ofChars s.toList ≠ init ++ [punctuator p] := by
    intro init p hlast
    cases List.append_inj_right' (hlast.symm.trans hcommented) rfl
  rw [insideOperator_iff, insideOpening_iff]
  constructor
  · rintro ⟨init, p, pair, hp, -⟩
    exact hlast init p hp
  · rintro ⟨⟨init, hslash⟩, -⟩
    exact hlast init .slash hslash

/-! ## 4. Carriage returns -/

/-- Puts a carriage return before every newline. -/
def withReturns (cs : List Char) : List Char :=
  cs.flatMap fun c => if c = '\n' then ['\r', '\n'] else [c]

theorem withReturns_of_notMem (h : '\n' ∉ cs) : withReturns cs = cs := by
  induction cs with
  | nil => rfl
  | cons c cs ih =>
    rw [List.mem_cons, not_or] at h
    rw [withReturns, List.flatMap_cons, if_neg (Ne.symm h.1), ← withReturns, ih h.2]
    rfl

theorem withReturns_append_newline (h : '\n' ∉ cs) (tail : List Char) :
    withReturns (cs ++ '\n' :: tail) = cs ++ ['\r'] ++ '\n' :: withReturns tail := by
  have hline : withReturns (cs ++ '\n' :: tail) =
      withReturns cs ++ ['\r', '\n'] ++ withReturns tail := by
    simp [withReturns]
  rw [hline, withReturns_of_notMem h]
  simp

theorem count_withReturns (cs : List Char) : (withReturns cs).count '\n' = cs.count '\n' := by
  induction cs with
  | nil => rfl
  | cons c cs ih =>
    rw [withReturns, List.flatMap_cons, List.count_append, ← withReturns, ih, List.count_cons]
    by_cases hc : c = '\n'
    · rw [if_pos hc, if_pos (by simp [hc]), Nat.add_comm]
      rfl
    · rw [if_neg hc, if_neg (by simpa using hc), List.count_singleton]
      simp [hc]

/-- **Carriage returns.** The one that is put before a newline is a blank at the end of its line. -/
theorem collect_withReturns {α : Type} {f : List Char → Element → Option α} (hf : Skips f)
    {raise : Nat → α → α}
    (h : ∀ pre before e, f (pre ++ before) e = (f before e).map (raise (pre.count '\n')))
    (cs : List Char) :
    collect f [] (ofChars (withReturns cs)) = collect f [] (ofChars cs) := by
  induction cs using Line.induction_separator '\n' with
  | single line hline => rw [withReturns_of_notMem hline]
  | cons line tail hline ih =>
    have hraise : ∀ pre es, collect f pre es = (collect f [] es).map (raise (pre.count '\n')) := by
      intro pre es
      rw [← collect_map (h pre), List.append_nil]
    -- The carriage return does not change on which line the rest of the text begins.
    have hcount : (line ++ ['\r'] ++ newline.chars).count '\n' =
        (line ++ newline.chars).count '\n' := by
      simp [List.count_append]
    have hnewline : ∀ before, f before newline = none := fun before => hf before newline trivial
    rw [withReturns_append_newline hline, ofChars_append_newline, ofChars_append_newline,
      collect_append, collect_append, collect_concat_blank hf (.inr (.inl rfl)), text_ofChars,
      text_ofChars, collect, collect, hnewline, hnewline, List.nil_append, List.nil_append,
      hraise (line ++ ['\r'] ++ newline.chars), hraise (line ++ newline.chars), hcount, ih]

/-! ## 5. Blanks anywhere -/

/-- **Blanks.** (1) Blanks between two parts of a text leave everything that is found in the text as
it is, exactly if they do not part an operator of two characters or the two slashes that open a
comment. (2) Carriage returns before all newlines of a text leave everything as it is. -/
theorem findings_insert_blanks (options : Options) :
    (∀ s t w : String, w ≠ "" → (∀ c ∈ w.toList, IsBlank c) →
        (findings options (s ++ w ++ t) = findings options (s ++ t)
          ↔ ¬ InsideOperator s t ∧ ¬ InsideOpening s t))
      ∧ ∀ s : String, findings options (String.ofList (withReturns s.toList)) =
          findings options s := by
  refine ⟨fun s t w hne hw => ?_, fun s => ?_⟩
  · rw [String.append_assoc]
    by_cases hcomment : EndsInComment s
    · rw [findings_append_blanks_of_comment options hcomment hw]
      exact iff_of_true rfl (not_inside_of_endsInComment hcomment)
    · rw [findings_append_blanks options hcomment hne hw]
      constructor
      · intro hsame
        exact ⟨fun h => findings_ne_of_insideOperator options h hsame.symm,
          fun h => findings_ne_of_insideOpening options h hsame.symm⟩
      · intro ⟨hoperator, hopening⟩
        exact (findings_append_of_not_inside options hcomment hoperator hopening).symm
  · rw [findings_eq, findings_eq, newlines, newlines, reports, reports, String.toList_ofList,
      collect_withReturns skips_token? token?_append,
      collect_withReturns skips_diagnostic? diagnostic?_append, count_withReturns]

-- The second and the third equals sign of a run belong to different operators, the first and the
-- second to the same.
theorem findings_insert_blanks_run :
    (∀ c ∈ " \t".toList, IsBlank c)
      ∧ (¬ InsideOperator "==" "=//" ∧ ¬ InsideOpening "==" "=//")
      ∧ findings {} ("==" ++ " \t" ++ "=//") = findings {} ("==" ++ "=//")
      ∧ InsideOperator "=" "==//"
      ∧ findings {} ("=" ++ " \t" ++ "==//") ≠ findings {} ("=" ++ "==//") := by
  have hblanks : ∀ c ∈ " \t".toList, IsBlank c := by simp [IsBlank]
  have hpair : ofChars "==".toList = [] ++ [punctuator .equalEqual] := by decide +kernel
  have hsingle : ofChars "=".toList = [] ++ [punctuator .equal] := by decide +kernel
  have houtside : ¬ InsideOperator "==" "=//" ∧ ¬ InsideOpening "==" "=//" := by
    rw [insideOperator_iff, insideOpening_iff, hpair]
    constructor
    · rintro ⟨init, p, pair, hlast, hp, -⟩
      cases List.append_inj_right' hlast rfl
      cases hp
    · rintro ⟨-, hslash⟩
      cases hslash
  have hinside : InsideOperator "=" "==//" :=
    insideOperator_iff.mpr ⟨[], .equal, .equalEqual, hsingle, rfl, rfl⟩
  refine ⟨hblanks, houtside, ?_, hinside, ?_⟩
  · exact ((findings_insert_blanks {}).1 "==" "=//" " \t" (by decide) hblanks).mpr houtside
  · intro hsame
    exact (((findings_insert_blanks {}).1 "=" "==//" " \t" (by decide) hblanks).mp hsame).1 hinside

end LoxLexer
