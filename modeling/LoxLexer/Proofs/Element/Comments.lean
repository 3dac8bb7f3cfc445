import LoxLexer.Proofs.Element.Lines

/-!
# Lines without their comments

A comment begins at the first two slashes in a row of its line and takes in the rest of the line.
What stands before it is the code of the line (`Line.code`). A text means what the code of its lines
means, each line by itself and put in its place (`collect_eq_flatten`).
-/

namespace LoxLexer

/-! ## 1. Code -/

namespace Line

/-- What stands before the first two slashes in a row; everything if there are none. -/
def code : List Char → List Char
  | [] => []
  | c :: cs => if ['/', '/'] <+: c :: cs then [] else c :: code cs

-- The two slashes after the code are the first in a row, even if more slashes follow them.
theorem code_cases (cs : List Char) :
    code cs = cs ∨ ∃ body, cs = code cs ++ '/' :: '/' :: body
      ∧ ¬ ['/', '/'] <:+: code cs ++ ['/'] := by
  induction cs with
  | nil => exact .inl rfl
  | cons c cs ih =>
    by_cases hprefix : ['/', '/'] <+: c :: cs
    · right
      rw [code, if_pos hprefix]
      obtain ⟨body, hbody⟩ := hprefix
      exact ⟨body, hbody.symm, by decide⟩
    · rw [code, if_neg hprefix]
      rcases ih with hcode | ⟨body, hsplit, hfirst⟩
      · exact .inl (by rw [hcode])
      · right
        refine ⟨body, by rw [List.cons_append, ← hsplit], ?_⟩
        rw [List.cons_append, List.infix_cons_iff, not_or]
        refine ⟨fun h => hprefix (h.trans ?_), hfirst⟩
        -- One slash of the two after the code is enough to see a slash at its end.
        refine ⟨'/' :: body, ?_⟩
        rw [List.cons_append, List.append_assoc, List.singleton_append, ← hsplit]

theorem length_splitOn_newline (cs : List Char) :
    (cs.splitOn '\n').length = cs.count '\n' + 1 := by
  induction cs using induction_separator '\n' with
  | single line hline =>
    rw [List.splitOn_eq_singleton hline, List.count_eq_zero_of_not_mem hline]
    rfl
  | cons line tail hline ih =>
    rw [List.splitOn_append_cons_self_of_not_mem hline, List.length_cons, ih, List.count_append,
      List.count_eq_zero_of_not_mem hline, List.count_cons_self, Nat.zero_add]

end Line

/-! ## 2. Places -/

def Token.atLine (line : Nat) (t : Token) : Token :=
  { t with line }

def Diagnostic.atLine (line : Nat) (d : Diagnostic) : Diagnostic :=
  { d with line }

namespace Element

/-- What an element means by `f` depends on the text before it only through the number of the line
where it is put by `place`. -/
structure Places {α : Type} (f : List Char → Element → Option α) (place : Nat → α → α) : Prop where
  eq_map : ∀ before e, f before e = (f [] e).map (place (lineAfter before))
  place_place : ∀ m n a, place m (place n a) = place m a

theorem places_token? : Places token? Token.atLine where
  eq_map before e := by cases e <;> rfl
  place_place _ _ _ := rfl

theorem places_diagnostic? : Places diagnostic? Diagnostic.atLine where
  eq_map before e := by cases e <;> rfl
  place_place _ _ _ := rfl

variable {α : Type} {f : List Char → Element → Option α} {place : Nat → α → α}
variable {es : List Element} {cs body : List Char}

theorem Places.collect_eq_filterMap (h : Places f place) (before : List Char)
    (hes : '\n' ∉ text es) :
    collect f before es = (es.filterMap (f [])).map (place (lineAfter before)) := by
  induction es generalizing before with
  | nil => rfl
  | cons e es ih =>
    rw [text_cons, List.mem_append, not_or] at hes
    rw [collect, h.eq_map, ih _ hes.2, lineAfter_append_of_notMem before hes.1]
    cases hf : f [] e with
    | none => rw [List.filterMap_cons_none hf]; rfl
    | some a => rw [List.filterMap_cons_some hf]; rfl

-- Elements of one line mean the same as on the first line, but for their place.
theorem Places.collect_of_notMem (h : Places f place) (before : List Char)
    (hes : '\n' ∉ text es) :
    collect f before es = (collect f [] es).map (place (lineAfter before)) := by
  rw [h.collect_eq_filterMap before hes, h.collect_eq_filterMap [] hes, List.map_map]
  exact List.map_congr_left fun a _ => (h.place_place _ _ a).symm

/-! ## 3. Comments -/

-- Two slashes that are the first in a row open a comment.
theorem ofChars_append_comment (hbody : '\n' ∉ body) (hfirst : ¬ ['/', '/'] <:+: cs ++ ['/']) :
    ofChars (cs ++ '/' :: '/' :: body) = ofChars cs ++ [comment body] := by
  have hcomment : ofChars ('/' :: '/' :: body) = [comment body] := by
    have hfits : (comment body).Fits [] := ⟨hbody, .inl rfl⟩
    have h := ofChars_of_fits hfits
    rwa [ofChars_nil, List.append_nil] at h
  have hlast : ¬ ['/', '/'] <:+: Line.last cs :=
    fun h => hfirst ((h.trans (Line.last_suffix cs).isInfix).trans (List.infix_append' [] cs ['/']))
  have hslash : cs.getLast? ≠ some '/' := by
    intro h
    obtain ⟨init, rfl⟩ := List.getLast?_eq_some_iff.mp h
    exact hfirst ⟨init, [], by simp⟩
  rw [ofChars_append_of_seam hlast (by simp) (fun _ => hslash), hcomment]

-- All that a line means is in its code.
theorem collect_code (hf : Skips f) (hline : '\n' ∉ cs) :
    collect f [] (ofChars cs) = collect f [] (ofChars (Line.code cs)) := by
  rcases Line.code_cases cs with hcode | ⟨body, hsplit, hfirst⟩
  · rw [hcode]
  · have hbody : '\n' ∉ body := by
      intro hmem
      apply hline
      rw [hsplit]
      simp [hmem]
    calc
      collect f [] (ofChars cs) =
          collect f [] (ofChars (Line.code cs ++ '/' :: '/' :: body)) := by rw [← hsplit]
      _ = collect f [] (ofChars (Line.code cs)) := by
        rw [ofChars_append_comment hbody hfirst, collect_concat_separates hf]
        exact trivial

/-- **Line by line.** A text means what the code of its lines means, line by line, each put on the
line with its number. -/
theorem collect_eq_flatten (h : Places f place) (hf : Skips f) (before cs : List Char) :
    collect f before (ofChars cs) = (((cs.splitOn '\n').map Line.code).mapIdx fun k line =>
      (collect f [] (ofChars line)).map (place (k + lineAfter before))).flatten := by
  have hcode : ∀ before line, '\n' ∉ line → collect f before (ofChars line) =
      (collect f [] (ofChars (Line.code line))).map (place (lineAfter before)) := by
    intro before line hline
    have hes : '\n' ∉ text (ofChars line) := by rwa [text_ofChars]
    rw [h.collect_of_notMem before hes, collect_code hf hline]
  induction cs using Line.induction_separator '\n' generalizing before with
  | single line hline =>
    rw [hcode before line hline, List.splitOn_eq_singleton hline]
    simp
  | cons line tail hline ih =>
    -- The text behind the newline is one line further down.
    have hlines : lineAfter (before ++ line ++ newline.chars) = lineAfter before + 1 := by
      rw [lineAfter, List.count_append, List.count_append, List.count_eq_zero_of_not_mem hline]
      rfl
    have hnewline : f (before ++ line) newline = none := hf _ newline trivial
    have hshift : ∀ k, k + (lineAfter before + 1) = k + 1 + lineAfter before := by omega
    rw [ofChars_append_newline, collect_append, collect, text_ofChars, hnewline,
      hcode before line hline, ih, hlines, List.splitOn_append_cons_self_of_not_mem hline,
      List.map_cons, List.mapIdx_cons, List.flatten_cons, Nat.zero_add]
    simp only [hshift]
    rfl

end Element

end LoxLexer
