import LoxLexer.Proofs.Element.Cutting

/-!
# What elements mean at another place

Tokens and diagnostics are collected from elements in the same way (`collect`), and what is
collected depends on the text before only through its newlines: behind more text the same elements
mean the same, with every line raised (`collect_map`).
-/

namespace LoxLexer

/-- A token some lines further down. -/
def Token.raise (lines : Nat) (t : Token) : Token :=
  { t with line := t.line + lines }

def Diagnostic.raise (lines : Nat) (d : Diagnostic) : Diagnostic :=
  { d with line := d.line + lines }

/-- A diagnostic as it would be on the first line. -/
def Diagnostic.toFirstLine (d : Diagnostic) : Diagnostic :=
  { d with line := 1 }

structure Findings where
  tokens : List Token
  diagnostics : List Diagnostic
  deriving DecidableEq

theorem lineAfter_append (before cs : List Char) :
    lineAfter (before ++ cs) = lineAfter cs + before.count '\n' := by
  rw [lineAfter, lineAfter, List.count_append]
  omega

theorem lineAfter_append_of_notMem {cs : List Char} (before : List Char) (h : '\n' ∉ cs) :
    lineAfter (before ++ cs) = lineAfter before := by
  rw [lineAfter, lineAfter, List.count_append, List.count_eq_zero_of_not_mem h, Nat.add_zero]

namespace Element

variable {α : Type} {f : List Char → Element → Option α} {es fs : List Element}

@[simp] theorem text_nil : text [] = [] := rfl

@[simp] theorem text_cons (e : Element) (es : List Element) : text (e :: es) = e.chars ++ text es :=
  rfl

@[simp] theorem text_append (es fs : List Element) : text (es ++ fs) = text es ++ text fs :=
  List.flatMap_append

theorem text_ofChars (cs : List Char) : text (ofChars cs) = cs :=
  (cut_ofChars cs).text_eq

/-! ## 1. Collecting -/

/-- What `f` gives for elements that stand after some characters, in their order. -/
def collect (f : List Char → Element → Option α) (before : List Char) : List Element → List α
  | [] => []
  | e :: es => (f before e).toList ++ collect f (before ++ e.chars) es

def reports (cs : List Char) : List Diagnostic :=
  collect diagnostic? [] (ofChars cs)

theorem diagnostics_eq_collect (before : List Char) (es : List Element) :
    diagnostics before es = collect diagnostic? before es := by
  induction es generalizing before with
  | nil => rfl
  | cons e es ih => rw [diagnostics, collect, ih]

theorem tokens_eq_collect (before : List Char) (es : List Element) :
    tokens before es =
      collect token? before es ++ [.endOfText (lineAfter (before ++ text es))] := by
  induction es generalizing before with
  | nil => simp [tokens, collect]
  | cons e es ih =>
    rw [tokens, collect, ih, text_cons, List.append_assoc, List.append_assoc]

theorem collect_append (before : List Char) (es fs : List Element) :
    collect f before (es ++ fs) = collect f before es ++ collect f (before ++ text es) fs := by
  induction es generalizing before with
  | nil => simp [collect]
  | cons e es ih =>
    rw [List.cons_append, collect, collect, ih, text_cons, List.append_assoc, List.append_assoc]

-- Everything that is collected is what `f` gives for one of the elements.
theorem exists_of_mem_collect {before : List Char} {a : α} (h : a ∈ collect f before es) :
    ∃ init e rest, es = init ++ e :: rest ∧ f (before ++ text init) e = some a := by
  induction es generalizing before with
  | nil => cases h
  | cons e es ih =>
    rw [collect, List.mem_append] at h
    rcases h with h | h
    · exact ⟨[], e, es, rfl, by simpa using h⟩
    · obtain ⟨init, e', rest, rfl, hf⟩ := ih h
      refine ⟨e :: init, e', rest, rfl, ?_⟩
      rwa [text_cons, ← List.append_assoc]

/-! ## 2. Lines -/

/-- **Raising.** If more characters before an element change what it means by `g`, they change all
that is collected by `g`. -/
theorem collect_map {g : α → α} {pre : List Char}
    (h : ∀ before e, f (pre ++ before) e = (f before e).map g) (before : List Char)
    (es : List Element) : collect f (pre ++ before) es = (collect f before es).map g := by
  induction es generalizing before with
  | nil => rfl
  | cons e es ih =>
    rw [collect, collect, h, List.append_assoc, ih, List.map_append, Option.toList_map]

theorem token?_append (pre before : List Char) (e : Element) :
    token? (pre ++ before) e = (token? before e).map (Token.raise (pre.count '\n')) := by
  cases e <;> simp [token?, Token.ofPunctuator, Token.raise, lineAfter_append]

theorem diagnostic?_append (pre before : List Char) (e : Element) :
    diagnostic? (pre ++ before) e =
      (diagnostic? before e).map (Diagnostic.raise (pre.count '\n')) := by
  cases e <;> simp [diagnostic?, Diagnostic.raise, lineAfter_append]

theorem collect_token?_raise (pre before : List Char) (es : List Element) :
    collect token? (pre ++ before) es =
      (collect token? before es).map (Token.raise (pre.count '\n')) :=
  collect_map (token?_append pre) before es

theorem collect_diagnostic?_raise (pre before : List Char) (es : List Element) :
    collect diagnostic? (pre ++ before) es =
      (collect diagnostic? before es).map (Diagnostic.raise (pre.count '\n')) :=
  collect_map (diagnostic?_append pre) before es

end Element

end LoxLexer
