import LoxLexer.Proofs.Element.OutOfPlace
import LoxLexer.Proofs.Scan.Blanks

/-!
# Blanks instead of characters out of place

A character out of place is reported and has no other effect: with a blank in its stead, a scan
finds the same tokens on the same lines, and the same diagnostics but for the one of the character
(`findings_blankOut`). This holds of any choice of such characters at once. The reason is that only
slashes and newlines decide which characters are out of place and on which lines they stand
(`skeleton`), and that a blank keeps the texts around it apart just as the character did.
-/

namespace LoxLexer

open Element

variable {blank? : Nat → Option Char} {cs ds : List Char} {c b : Char}

/-! ## 1. The skeleton of a text -/

def outline (c : Char) : Char :=
  if c = '/' ∨ c = '\n' then c else ' '

/-- A text in which only slashes and newlines are left and everything else is a space. -/
def skeleton (cs : List Char) : List Char :=
  cs.map outline

theorem outline_eq_iff (c : Char) {d : Char} (hd : d = '/' ∨ d = '\n') : outline c = d ↔ c = d := by
  by_cases hc : c = '/' ∨ c = '\n'
  · rw [outline, if_pos hc]
  · have hne : ' ' ≠ d := by rcases hd with rfl | rfl <;> decide
    rw [outline, if_neg hc]
    exact iff_of_false hne fun h => hc (h ▸ hd)

theorem skeleton_append (cs ds : List Char) : skeleton (cs ++ ds) = skeleton cs ++ skeleton ds :=
  List.map_append

theorem count_skeleton (cs : List Char) : (skeleton cs).count '\n' = cs.count '\n' := by
  rw [skeleton, List.count_eq_countP, List.countP_map, List.count_eq_countP]
  apply List.countP_congr
  intro c _
  simpa using outline_eq_iff c (.inr rfl)

theorem last_skeleton (cs : List Char) : Line.last (skeleton cs) = skeleton (Line.last cs) := by
  have hnewline : ((· != '\n') ∘ outline) = (· != '\n') := by
    funext c
    simpa [bne] using outline_eq_iff c (.inr rfl)
  rw [Line.last, skeleton, ← List.map_reverse, List.takeWhile_map, hnewline, ← List.map_reverse,
    Line.last, skeleton]

theorem infix_skeleton_iff (cs : List Char) :
    ['/', '/'] <:+: skeleton cs ↔ ['/', '/'] <:+: cs := by
  constructor
  · intro h
    obtain ⟨slashes, hinfix, hslashes⟩ := List.infix_map_iff.mp h
    have hall : slashes = ['/', '/'] := by
      rw [eq_comm, List.map_eq_cons_iff] at hslashes
      obtain ⟨c, tail, rfl, hc, htail⟩ := hslashes
      rw [List.map_eq_singleton_iff] at htail
      obtain ⟨d, rfl, hd⟩ := htail
      rw [(outline_eq_iff c (.inl rfl)).mp hc, (outline_eq_iff d (.inl rfl)).mp hd]
    exact hall ▸ hinfix
  · intro h
    exact h.map outline

theorem outOfPlace_congr (h : skeleton cs = skeleton ds) (c : Char) :
    OutOfPlace cs c ↔ OutOfPlace ds c := by
  rw [OutOfPlace, OutOfPlace, ← infix_skeleton_iff (Line.last cs), ← last_skeleton, h,
    last_skeleton, infix_skeleton_iff]

theorem count_newline_congr (h : skeleton cs = skeleton ds) : cs.count '\n' = ds.count '\n' := by
  rw [← count_skeleton cs, h, count_skeleton]

theorem lineAfter_congr (h : skeleton cs = skeleton ds) : lineAfter cs = lineAfter ds := by
  rw [lineAfter, lineAfter, count_newline_congr h]

/-! ## 2. Blanking out -/

/-- A text with blanks at the positions for which one is given. -/
def blankOut (blank? : Nat → Option Char) (cs : List Char) : List Char :=
  cs.mapIdx fun position c => (blank? position).getD c

/-- Blanks are given for characters of a text that are out of place, and for no others. -/
def OnlyMisplaced (blank? : Nat → Option Char) (cs : List Char) : Prop :=
  ∀ position b c, blank? position = some b → cs[position]? = some c →
    IsBlank b ∧ OutOfPlace (cs.take position) c

theorem blankOut_concat (blank? : Nat → Option Char) (cs : List Char) (c : Char) :
    blankOut blank? (cs ++ [c]) = blankOut blank? cs ++ [(blank? cs.length).getD c] :=
  List.mapIdx_concat

-- What is said of a text holds of a shorter one, and of the character that is missing there.
theorem OnlyMisplaced.concat (h : OnlyMisplaced blank? (cs ++ [c])) :
    OnlyMisplaced blank? cs
      ∧ ∀ b, blank? cs.length = some b → IsBlank b ∧ OutOfPlace cs c := by
  constructor
  · intro position b d hb hd
    obtain ⟨hlt, -⟩ := List.getElem?_eq_some_iff.mp hd
    have hshort := h position b d hb (by rw [List.getElem?_append_left hlt, hd])
    rwa [List.take_append_of_le_length hlt.le] at hshort
  · intro b hb
    have hlast := h cs.length b c hb (by simp)
    rwa [List.take_left] at hlast

theorem skeleton_blankOut (h : OnlyMisplaced blank? cs) :
    skeleton (blankOut blank? cs) = skeleton cs := by
  induction cs using List.reverseRecOn with
  | nil => rfl
  | append_singleton cs c ih =>
    obtain ⟨hcs, hlast⟩ := h.concat
    rw [blankOut_concat, skeleton_append, skeleton_append, ih hcs]
    cases hb : blank? cs.length with
    | none => rfl
    | some b =>
      obtain ⟨hblank, hplace⟩ := hlast b hb
      have hc : outline c = ' ' := if_neg fun h => hplace.1 (by rcases h with rfl | rfl <;> decide)
      have hb : outline b = ' ' := by rcases hblank with rfl | rfl | rfl <;> decide
      show skeleton cs ++ [outline b] = skeleton cs ++ [outline c]
      rw [hb, hc]

/-! ## 3. What is found -/

theorem isBlank_mem_alphabet (hb : IsBlank b) : b ∈ alphabet := by
  rcases hb with rfl | rfl | rfl <;> decide

/-- **Diagnostics.** Those of the characters that are left in their place are left. -/
theorem reports_blankOut (h : OnlyMisplaced blank? cs) :
    reports (blankOut blank? cs) =
      ((misplaced cs).filter fun x => (blank? x.2).isNone).map (diagnosticAt cs) := by
  induction cs using List.reverseRecOn with
  | nil => exact reports_nil
  | append_singleton cs c ih =>
    obtain ⟨hcs, hlast⟩ := h.concat
    have hskeleton := skeleton_blankOut hcs
    have hbefore : ((misplaced cs).filter fun x => (blank? x.2).isNone).map
        (diagnosticAt (cs ++ [c])) =
        ((misplaced cs).filter fun x => (blank? x.2).isNone).map (diagnosticAt cs) :=
      List.map_congr_left fun x hx => diagnosticAt_concat (List.mem_filter.mp hx).1 c
    rw [blankOut_concat, reports_concat, misplaced_concat, List.filter_append, List.map_append,
      hbefore, ← ih hcs, lineAfter_congr hskeleton, List.append_cancel_left_eq]
    cases hb : blank? cs.length with
    | none =>
      rw [Option.getD_none]
      by_cases hplace : OutOfPlace cs c
      · rw [if_pos ((outOfPlace_congr hskeleton c).mpr hplace), if_pos hplace]
        simp [hb, diagnosticAt]
      · rw [if_neg (hplace ∘ (outOfPlace_congr hskeleton c).mp), if_neg hplace]
        rfl
    | some b =>
      -- The blank is not reported, and its position is not left.
      obtain ⟨hblank, hplace⟩ := hlast b hb
      have hgone : ¬ OutOfPlace (blankOut blank? cs) b := fun h => h.1 (isBlank_mem_alphabet hblank)
      rw [Option.getD_some, if_neg hgone, if_pos hplace]
      simp [hb]

-- Tokens depend on the text before them only through its newlines.
theorem collect_token?_congr (h : cs.count '\n' = ds.count '\n') (es : List Element) :
    collect token? cs es = collect token? ds es := by
  have hcs := collect_token?_raise cs [] es
  have hds := collect_token?_raise ds [] es
  rw [List.append_nil] at hcs hds
  rw [hcs, hds, h]

/-- **Tokens.** They are the same, whatever text follows. -/
theorem collect_token?_blankOut_append (h : OnlyMisplaced blank? cs) (rest : List Char) :
    collect token? [] (ofChars (blankOut blank? cs ++ rest)) =
      collect token? [] (ofChars (cs ++ rest)) := by
  induction cs using List.reverseRecOn generalizing rest with
  | nil => rfl
  | append_singleton cs c ih =>
    obtain ⟨hcs, hlast⟩ := h.concat
    rw [blankOut_concat, List.append_assoc, List.append_assoc]
    cases hb : blank? cs.length with
    | none => exact ih hcs ([c] ++ rest)
    | some b =>
      obtain ⟨hblank, hplace⟩ := hlast b hb
      have hskeleton := skeleton_blankOut hcs
      have hcomment := ((outOfPlace_congr hskeleton c).mpr hplace).2
      have hblanks : ofChars (blankOut blank? cs ++ ([b] ++ rest)) =
          ofChars (blankOut blank? cs) ++ blank b :: ofChars rest :=
        ofChars_append_blanks_append hcomment (List.cons_ne_nil b []) (by simpa using hblank) rest
      have hunexpected : ofChars (cs ++ ([c] ++ rest)) = ofChars cs ++ unexpected c :: ofChars rest :=
        ofChars_of_outOfPlace hplace rest
      have hsame := ih hcs []
      rw [List.append_nil, List.append_nil] at hsame
      have hcount := count_newline_congr (skeleton_blankOut h)
      rw [blankOut_concat, hb, Option.getD_some] at hcount
      rw [Option.getD_some, hblanks, hunexpected, collect_append, collect_append, hsame,
        text_ofChars, text_ofChars, collect, collect, List.nil_append, List.nil_append]
      exact congrArg (collect token? [] (ofChars cs) ++ ·) (collect_token?_congr hcount _)

/-! ## 4. Scans -/

/-- **Recovery.** Let blanks be given for some of the characters of a text that are out of place,
which are those that a scan reports. With the blanks in their stead, a scan finds the same tokens,
and reports the other characters as before; if blanks are given for all of them, it reports nothing. -/
theorem findings_blankOut (options : Options) (source : String) (blank? : Nat → Option Char)
    (h : ∀ position b, blank? position = some b →
      IsBlank b ∧ ∃ c, (c, position) ∈ misplaced source.toList) :
    (findings options source).diagnostics =
        (misplaced source.toList).map (diagnosticAt source.toList)
      ∧ (findings options (String.ofList (blankOut blank? source.toList))).tokens =
        (findings options source).tokens
      ∧ (findings options (String.ofList (blankOut blank? source.toList))).diagnostics =
        ((misplaced source.toList).filter fun x => (blank? x.2).isNone).map
          (diagnosticAt source.toList)
      ∧ ((∀ x ∈ misplaced source.toList, (blank? x.2).isSome) →
          (findings options (String.ofList (blankOut blank? source.toList))).diagnostics = []) := by
  have hmisplaced : OnlyMisplaced blank? source.toList := by
    intro position b c hb hc
    obtain ⟨hblank, d, hd⟩ := h position b hb
    obtain ⟨hget, hplace⟩ := mem_misplaced_iff.mp hd
    rw [hc] at hget
    exact ⟨hblank, Option.some.inj hget ▸ hplace⟩
  have hreports : (findings options (String.ofList (blankOut blank? source.toList))).diagnostics =
      ((misplaced source.toList).filter fun x => (blank? x.2).isNone).map
        (diagnosticAt source.toList) := by
    rw [findings_diagnostics, String.toList_ofList, reports_blankOut hmisplaced]
  refine ⟨?_, ?_, hreports, fun hall => ?_⟩
  · rw [findings_diagnostics, reports_eq_map_misplaced]
  · have htokens := collect_token?_blankOut_append hmisplaced []
    rw [List.append_nil, List.append_nil] at htokens
    rw [findings_eq, findings_eq, newlines, newlines, String.toList_ofList, htokens,
      count_newline_congr (skeleton_blankOut hmisplaced)]
  · have hnone : (misplaced source.toList).filter (fun x => (blank? x.2).isNone) = [] := by
      rw [List.filter_eq_nil_iff]
      intro x hx
      rw [Option.isNone_iff_eq_none, ← Ne, Option.ne_none_iff_isSome]
      exact hall x hx
    rw [hreports, hnone, List.map_nil]

-- A letter between two operators goes, and they still do not pair; then the other character that is
-- out of place goes as well. The same letter in the comment was never reported.
theorem findings_blankOut_letter :
    misplaced "@!é=//é\n(".toList = [('@', 0), ('é', 2)]
      ∧ (findings {} "@!\t=//é\n(").tokens = (findings {} "@!é=//é\n(").tokens
      ∧ (findings {} "@!\t=//é\n(").diagnostics = [⟨1, "Unexpected character: @"⟩]
      ∧ (findings {} " ! =//é\n(").tokens = (findings {} "@!é=//é\n(").tokens
      ∧ (findings {} " ! =//é\n(").diagnostics = [] := by
  have hmisplaced : misplaced "@!é=//é\n(".toList = [('@', 0), ('é', 2)] := by decide +kernel
  have hblank : ∀ (positions : List Nat) (blank : Char), IsBlank blank → positions ⊆ [0, 2] →
      ∀ position b, (if position ∈ positions then some blank else none) = some b →
        IsBlank b ∧ ∃ c, (c, position) ∈ misplaced "@!é=//é\n(".toList := by
    intro positions blank hblank hpositions position b hb
    by_cases hposition : position ∈ positions
    · rw [if_pos hposition] at hb
      cases hb
      rw [hmisplaced]
      have hlisted := hpositions hposition
      rw [List.mem_pair] at hlisted
      rcases hlisted with rfl | rfl
      · exact ⟨hblank, '@', by decide⟩
      · exact ⟨hblank, 'é', by decide⟩
    · rw [if_neg hposition] at hb
      cases hb
  have hone : String.ofList (blankOut (fun position => if position ∈ [2] then some '\t' else none)
      "@!é=//é\n(".toList) = "@!\t=//é\n(" := by decide +kernel
  have hboth : String.ofList (blankOut (fun position => if position ∈ [0, 2] then some ' ' else none)
      "@!é=//é\n(".toList) = " ! =//é\n(" := by decide +kernel
  obtain ⟨-, htokens, hleft, -⟩ := findings_blankOut {} "@!é=//é\n(" _
    (hblank [2] '\t' (by decide) (by decide))
  obtain ⟨-, htokens', -, hnone⟩ := findings_blankOut {} "@!é=//é\n(" _
    (hblank [0, 2] ' ' (by decide) (by decide))
  rw [hone] at htokens hleft
  rw [hboth] at htokens' hnone
  refine ⟨hmisplaced, htokens, ?_, htokens', hnone ?_⟩
  · rw [hleft, hmisplaced]
    decide +kernel
  · rw [hmisplaced]
    decide

end LoxLexer
