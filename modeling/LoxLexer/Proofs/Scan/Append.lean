import LoxLexer.Proofs.Element.Joining
import LoxLexer.Proofs.Scan.Elements

/-!
# Scanning a text that goes on

The findings of a text `s ++ t` are those of `s` and of `t` put together (`join`), with the lines of
`t` counted on from `s`. Only what stands across the seam can disturb this: a comment at the end of
`s` swallows the rest of its line, an equals sign at the beginning of `t` pairs with an operator,
and a slash there opens a comment with another one. `findings_append` says so for all texts.
-/

namespace LoxLexer

open Element

/-! ## 1. Putting findings together -/

/-- What a scan of a text finds when nothing was found before. -/
def findings (options : Options) (s : String) : Findings :=
  { tokens := (scan options s .empty).tokens
    diagnostics := (scan options s .empty).log.toList }

/-- The tokens found but for the end of the text. -/
def Findings.body (f : Findings) : List Token :=
  f.tokens.filter (·.kind ≠ .eof)

def newlines (s : String) : Nat :=
  s.toList.count '\n'

def fromNewline (s : String) : String :=
  String.ofList (Line.rest s.toList)

/-- The findings of two texts one after the other, where `kept` are the tokens of the first. -/
def joinKept (options : Options) (kept : List Token) (s t : String) : Findings :=
  { tokens := kept ++ (findings options t).body.map (Token.raise (newlines s))
      ++ [.endOfText (1 + (newlines s + newlines t))]
    diagnostics := (findings options s).diagnostics
      ++ (findings options t).diagnostics.map (Diagnostic.raise (newlines s)) }

def join (options : Options) (s t : String) : Findings :=
  joinKept options (findings options s).body s t

/-- There are two slashes in a row after the last newline of a text. -/
def EndsInComment (s : String) : Prop :=
  ['/', '/'] <:+: Line.last s.toList

/-- An operator at the end of a text and an equals sign at the beginning of the next make one
operator: the one before is not itself made with the equals sign that ends it. -/
def PairsAcross (options : Options) (s t : String) : Prop :=
  (∃ c ∈ ['!', '=', '<', '>'], s.toList.getLast? = some c)
    ∧ (∃ token, (findings options s).body.getLast? = some token ∧ token.lexeme.length = 1)
    ∧ t.toList.head? = some '='

/-- A slash at the end of a text and one at the beginning of the next make two in a row. -/
def SlashesAcross (s t : String) : Prop :=
  s.toList.getLast? = some '/' ∧ t.toList.head? = some '/'

variable {options : Options} {s t t' : String} {es init : List Element} {e : Element}

/-! ## 2. Findings and elements -/

theorem findings_body (options : Options) (s : String) :
    (findings options s).body = collect token? [] (ofChars s.toList) := by
  rw [Findings.body, findings, scan_tokens, tokens_eq_collect, List.filter_append,
    List.filter_eq_self.mpr]
  · simp [Token.endOfText]
  · intro token h
    obtain ⟨init, e, rest, -, htoken⟩ := exists_of_mem_collect h
    cases e <;> cases htoken
    simp [Token.ofPunctuator]

theorem findings_diagnostics (options : Options) (s : String) :
    (findings options s).diagnostics = reports s.toList :=
  scan_log_empty options s

theorem findings_eq (options : Options) (s : String) :
    findings options s =
      { tokens := collect token? [] (ofChars s.toList) ++ [.endOfText (1 + newlines s)]
        diagnostics := reports s.toList } := by
  rw [← findings_diagnostics options s, findings, scan_tokens, tokens_eq_collect, text_ofChars]
  rfl

/-- **The seam.** If the elements of `s ++ t` are some elements `es`, which hold `s` and some extra
characters of the same line, and the elements of `t'`, the findings are put together from those of
`es` and of `t'`. -/
theorem findings_of_seam (extra : List Char)
    (hcut : ofChars (s ++ t).toList = es ++ ofChars t'.toList)
    (htext : Element.text es = s.toList ++ extra) (hextra : '\n' ∉ extra)
    (hsame : collect diagnostic? [] es = reports s.toList) :
    findings options (s ++ t) = joinKept options (collect token? [] es) s t' := by
  -- The extra characters go on to no new line, so the lines of `t'` are counted on from `s`.
  have hcount : (s.toList ++ extra).count '\n' = newlines s := by
    rw [List.count_append, List.count_eq_zero_of_not_mem hextra]
    rfl
  have hnewlines : newlines (s ++ t) = newlines s + newlines t' := by
    have h := congrArg (fun es => (Element.text es).count '\n') hcut
    rw [text_append, text_ofChars, text_ofChars, htext, List.count_append, hcount] at h
    exact h
  have htokens := collect_token?_raise (s.toList ++ extra) [] (ofChars t'.toList)
  have hreports := collect_diagnostic?_raise (s.toList ++ extra) [] (ofChars t'.toList)
  rw [List.append_nil, hcount] at htokens hreports
  rw [findings_eq, reports, hcut, collect_append, collect_append, List.nil_append, htext, htokens,
    hreports, hnewlines, hsame, joinKept, findings_body, findings_diagnostics, findings_diagnostics]
  rfl

/-! ## 3. The last element -/

theorem collect_concat {α : Type} (f : List Char → Element → Option α) (init : List Element)
    (e : Element) :
    collect f [] (init ++ [e]) = collect f [] init ++ (f (Element.text init) e).toList := by
  rw [collect_append, collect, collect, List.append_nil, List.nil_append]

theorem toList_eq_of_last (hlast : ofChars s.toList = init ++ [e]) :
    s.toList = Element.text init ++ e.chars := by
  rw [← text_ofChars s.toList, hlast, text_append, text_cons, text_nil, List.append_nil]

theorem getLast?_of_last (hlast : ofChars s.toList = init ++ [e]) :
    s.toList.getLast? = e.chars.getLast? := by
  rw [toList_eq_of_last hlast, List.getLast?_append_of_ne_nil _ e.chars_ne_nil]

theorem exists_fits_of_last (hlast : ofChars s.toList = init ++ [e]) : ∃ rest, e.Fits rest :=
  (cut_ofChars s.toList).fits_of_mem (by simp [hlast])

theorem endsInComment_iff :
    EndsInComment s ↔ ∃ init body, ofChars s.toList = init ++ [comment body] :=
  infix_last_iff

theorem ne_comment_of_last (h : ¬ EndsInComment s) (hlast : ofChars s.toList = init ++ [e])
    (body : List Char) : e ≠ comment body := by
  intro he
  subst he
  exact h (endsInComment_iff.mpr ⟨init, body, hlast⟩)

-- A text that ends in an operator of one character ends in such an element.
theorem PairsAcross.exists_pair (hpairs : PairsAcross options s t) (h : ¬ EndsInComment s)
    (hlast : ofChars s.toList = init ++ [e]) :
    ∃ p pair, e = punctuator p ∧ p.withEqual? = some pair := by
  obtain ⟨⟨c, hc, hchar⟩, ⟨token, htoken, hlength⟩, -⟩ := hpairs
  obtain ⟨rest, hfits⟩ := exists_fits_of_last hlast
  rw [getLast?_of_last hlast] at hchar
  rw [findings_body, hlast, collect_concat] at htoken
  -- Nothing but an operator ends in one of the four signs.
  cases e with
  | punctuator p =>
    obtain rfl : Token.ofPunctuator p p.spelling _ = token := by simpa [token?] using htoken
    have hsign : p.spelling.toList.getLast? ∈ ['!', '=', '<', '>'].map some :=
      List.mem_map.mpr ⟨c, hc, hchar.symm⟩
    obtain ⟨pair, hp⟩ := Option.isSome_iff_exists.mp (p.isSome_withEqual?_iff.mpr ⟨hsign, hlength⟩)
    exact ⟨p, pair, rfl, hp⟩
  | comment body => exact absurd rfl (ne_comment_of_last h hlast body)
  | blank c' =>
    obtain rfl : c' = c := by simpa [chars] using hchar
    rcases hfits with rfl | rfl | rfl <;> simp at hc
  | newline =>
    obtain rfl : '\n' = c := by simpa [chars] using hchar
    simp at hc
  | unexpected c' =>
    obtain rfl : c' = c := by simpa [chars] using hchar
    exact absurd (by simp at hc; rcases hc with rfl | rfl | rfl | rfl <;> decide) hfits

theorem pairsAcross_of_last {p pair : Punctuator}
    (hlast : ofChars s.toList = init ++ [punctuator p]) (hp : p.withEqual? = some pair)
    (ht : t.toList.head? = some '=') : PairsAcross options s t := by
  have hsome : p.withEqual?.isSome := by rw [hp]; rfl
  obtain ⟨hsign, hlength⟩ := p.isSome_withEqual?_iff.mp hsome
  obtain ⟨c, hc, hchar⟩ := List.mem_map.mp hsign
  refine ⟨⟨c, hc, by rw [getLast?_of_last hlast, chars, hchar]⟩, ?_, ht⟩
  rw [findings_body, hlast, collect_concat]
  exact ⟨.ofPunctuator p p.spelling (lineAfter (Element.text init)), by simp [token?], hlength⟩

theorem SlashesAcross.eq_slash (hslashes : SlashesAcross s t) (h : ¬ EndsInComment s)
    (hlast : ofChars s.toList = init ++ [e]) : e = punctuator .slash := by
  obtain ⟨rest, hfits⟩ := exists_fits_of_last hlast
  have hchar := hslashes.1
  rw [getLast?_of_last hlast] at hchar
  by_contra hne
  exact slash_notMem_chars hfits (ne_comment_of_last h hlast) hne (List.mem_of_getLast? hchar)

/-! ## 4. The four seams -/

theorem toList_fromNewline (t : String) : (fromNewline t).toList = Line.rest t.toList :=
  String.toList_ofList

-- A comment takes in the rest of its line.
theorem findings_append_comment {body : List Char}
    (hlast : ofChars s.toList = init ++ [comment body]) (t : String) :
    findings options (s ++ t) = join options s (fromNewline t) := by
  obtain ⟨rest, hbody, -⟩ := exists_fits_of_last hlast
  have hcut : ofChars (s ++ t).toList =
      init ++ [comment (body ++ Line.head t.toList)] ++ ofChars (fromNewline t).toList := by
    rw [String.toList_append, ofChars_append hlast, ofChars_comment_append hbody,
      toList_fromNewline, List.append_assoc, List.singleton_append]
  have hkept : collect token? [] (init ++ [comment (body ++ Line.head t.toList)]) =
      (findings options s).body := by
    rw [findings_body, hlast, collect_concat, collect_concat]
    rfl
  rw [join, ← hkept]
  apply findings_of_seam (Line.head t.toList) hcut
  · rw [toList_eq_of_last hlast]
    simp [chars]
  · exact Line.newline_notMem_head t.toList
  · rw [reports, hlast, collect_concat, collect_concat]
    rfl

-- An equals sign makes an operator of two characters out of the last one.
theorem findings_append_equal (options : Options) {p pair : Punctuator}
    (hlast : ofChars s.toList = init ++ [punctuator p]) (hp : p.withEqual? = some pair)
    (t : String) :
    ∃ kept line, (findings options s).body = kept ++ [.ofPunctuator p p.spelling line]
      ∧ findings options (s ++ ("=" ++ t)) =
        joinKept options (kept ++ [.ofPunctuator pair pair.spelling line]) s t := by
  have hcut : ofChars (s ++ ("=" ++ t)).toList =
      init ++ [punctuator pair] ++ ofChars t.toList := by
    rw [String.toList_append, ofChars_append hlast, String.toList_append]
    exact (congrArg (init ++ ·) (ofChars_withEqual hp t.toList)).trans (List.append_cons ..)
  refine ⟨collect token? [] init, lineAfter (Element.text init), ?_, ?_⟩
  · rw [findings_body, hlast, collect_concat]
    rfl
  · have hkept : collect token? [] (init ++ [punctuator pair]) = collect token? [] init
        ++ [.ofPunctuator pair pair.spelling (lineAfter (Element.text init))] := by
      rw [collect_concat]
      rfl
    rw [← hkept]
    apply findings_of_seam ['='] hcut
    · rw [toList_eq_of_last hlast]
      simp [chars, (Punctuator.withEqual?_spelling hp).1]
    · decide
    · rw [reports, hlast, collect_concat, collect_concat]
      rfl

-- A slash behind a slash opens a comment.
theorem findings_append_slash (hlast : ofChars s.toList = init ++ [punctuator .slash])
    (ht : t.toList.head? = some '/') :
    ∃ kept line, (findings options s).body = kept ++ [.ofPunctuator .slash "/" line]
      ∧ findings options (s ++ t) = joinKept options kept s (fromNewline t) := by
  obtain ⟨tail, htail⟩ := List.head?_eq_some_iff.mp ht
  have hslash : '\n' ∉ ['/'] := by decide
  have hcut : ofChars (s ++ t).toList =
      init ++ [comment (Line.head tail)] ++ ofChars (fromNewline t).toList := by
    rw [String.toList_append, ofChars_append hlast, toList_fromNewline, htail, ofChars_slash_slash,
      ← List.singleton_append (l := tail), Line.rest_append hslash, List.append_assoc,
      List.singleton_append]
  have hkept : collect token? [] (init ++ [comment (Line.head tail)]) =
      collect token? [] init := by
    rw [collect_concat]
    exact List.append_nil _
  refine ⟨collect token? [] init, lineAfter (Element.text init), ?_, ?_⟩
  · rw [findings_body, hlast, collect_concat]
    rfl
  · rw [← hkept]
    apply findings_of_seam ('/' :: Line.head tail) hcut
    · rw [toList_eq_of_last hlast]
      simp [chars, Punctuator.spelling]
    · simp [Line.newline_notMem_head]
    · rw [reports, hlast, collect_concat, collect_concat]
      rfl

-- An element that fits before the second text, or none at all, leaves both texts as they are.
theorem findings_append_of_fits
    (h : ofChars (s ++ t).toList = ofChars s.toList ++ ofChars t.toList) :
    findings options (s ++ t) = join options s t := by
  rw [join, findings_body]
  apply findings_of_seam [] h
  · rw [text_ofChars, List.append_nil]
  · exact List.not_mem_nil
  · rfl

/-- **Scanning a text that goes on.** The findings of `s ++ t` are determined by those of `s` and
of `t`. (1) If `s` ends in a comment, `t` counts from its first newline on. (2) If an operator at
the end of `s` pairs with the equals sign at the beginning of `t`, the last token of `s` becomes the
pair. (3) If slashes meet, the last token of `s` goes and `t` counts from its first newline on.
(4) Otherwise both count as they are. -/
theorem findings_append (options : Options) (s t : String) :
    (EndsInComment s → findings options (s ++ t) = join options s (fromNewline t))
      ∧ (¬ EndsInComment s → PairsAcross options s t →
          ∃ kept p pair line t', t = "=" ++ t'
            ∧ (findings options s).body = kept ++ [.ofPunctuator p p.spelling line]
            ∧ p.withEqual? = some pair
            ∧ findings options (s ++ t) =
              joinKept options (kept ++ [.ofPunctuator pair pair.spelling line]) s t')
      ∧ (¬ EndsInComment s → SlashesAcross s t →
          ∃ kept line, (findings options s).body = kept ++ [.ofPunctuator .slash "/" line]
            ∧ findings options (s ++ t) = joinKept options kept s (fromNewline t))
      ∧ (¬ EndsInComment s → ¬ PairsAcross options s t → ¬ SlashesAcross s t →
          findings options (s ++ t) = join options s t) := by
  rcases eq_nil_or_last s.toList with hs | ⟨init, e, hlast, rest, hfits⟩
  · -- Nothing can reach across the end of an empty text.
    refine ⟨?_, ?_, ?_, fun _ _ _ => ?_⟩
    · intro h
      simp [EndsInComment, hs, Line.last] at h
    · intro _ hpairs
      obtain ⟨c, -, hc⟩ := hpairs.1
      rw [hs] at hc
      cases hc
    · intro _ hslashes
      have hc := hslashes.1
      rw [hs] at hc
      cases hc
    · apply findings_append_of_fits
      rw [String.toList_append, hs, ofChars_nil, List.nil_append, List.nil_append]
  · refine ⟨fun h => ?_, fun h hpairs => ?_, fun h hslashes => ?_, fun h hpairs hslashes => ?_⟩
    · obtain ⟨init, body, hcomment⟩ := endsInComment_iff.mp h
      exact findings_append_comment hcomment t
    · obtain ⟨p, pair, rfl, hp⟩ := hpairs.exists_pair h hlast
      obtain ⟨tail, htail⟩ := List.head?_eq_some_iff.mp hpairs.2.2
      obtain rfl : t = "=" ++ String.ofList tail := by
        rw [← String.toList_inj, htail]
        simp
      obtain ⟨kept, line, hbody, hfindings⟩ :=
        findings_append_equal options hlast hp (String.ofList tail)
      exact ⟨kept, p, pair, line, _, rfl, hbody, hp, hfindings⟩
    · obtain rfl := hslashes.eq_slash h hlast
      exact findings_append_slash hlast hslashes.2
    · -- What reaches across would make the last element longer, so that it does not fit.
      apply findings_append_of_fits
      rw [String.toList_append]
      apply ofChars_append_of_fits hlast
      apply fits_of_not_grows hfits (ne_comment_of_last h hlast)
      · intro p pair he hp ht
        subst he
        exact hpairs (pairsAcross_of_last hlast hp ht)
      · intro he ht
        subst he
        refine hslashes ⟨?_, ht⟩
        rw [getLast?_of_last hlast]
        rfl

-- Each of the four ways to go on is taken: behind a comment, by a pair, by two slashes, and behind
-- an equals sign that already belongs to a pair.
theorem findings_append_each_way :
    findings {} ("+//x" ++ "=\n-") = join {} "+//x" "\n-"
      ∧ (∃ kept p pair line t', "=;" = "=" ++ t'
          ∧ (findings {} "@<").body = kept ++ [.ofPunctuator p p.spelling line]
          ∧ p.withEqual? = some pair
          ∧ findings {} ("@<" ++ "=;") =
            joinKept {} (kept ++ [.ofPunctuator pair pair.spelling line]) "@<" t')
      ∧ (∃ kept line, (findings {} "a/").body = kept ++ [.ofPunctuator .slash "/" line]
          ∧ findings {} ("a/" ++ "/b\n*") = joinKept {} kept "a/" (fromNewline "/b\n*"))
      ∧ findings {} ("==" ++ "=") = join {} "==" "=" := by
  refine ⟨?_, ?_, ?_, ?_⟩
  · apply (findings_append {} "+//x" "=\n-").1
    unfold EndsInComment
    decide +kernel
  · apply (findings_append {} "@<" "=;").2.1
    · unfold EndsInComment
      decide +kernel
    · exact ⟨⟨'<', by decide, rfl⟩, ⟨.ofPunctuator .less "<" 1, by decide +kernel, rfl⟩, rfl⟩
  · apply (findings_append {} "a/" "/b\n*").2.2.1
    · unfold EndsInComment
      decide +kernel
    · exact ⟨rfl, rfl⟩
  · apply (findings_append {} "==" "=").2.2.2
    · unfold EndsInComment
      decide +kernel
    · intro hpairs
      obtain ⟨token, htoken, hlength⟩ := hpairs.2.1
      have hlast : (findings {} "==").body.getLast? = some (.ofPunctuator .equalEqual "==" 1) := by
        decide +kernel
      rw [hlast] at htoken
      cases htoken
      cases hlength
    · intro hslashes
      cases hslashes.1

end LoxLexer
