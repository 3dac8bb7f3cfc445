import Mathlib.Data.List.TakeWhile

/-!
# Lines of a text

A newline ends a line. A text is looked at through its first line (`Line.head`, and `Line.rest`
after it), through its last line (`Line.last`), or as a list of lines that keep their newlines
(`Line.all`).
-/

namespace LoxLexer.Line

variable {body tail : List Char}

/-! ## 1. The first line -/

/-- What stands before the first newline of a text. -/
def head (cs : List Char) : List Char :=
  cs.takeWhile (· != '\n')

/-- A text from its first newline on; nothing if it has none. -/
def rest (cs : List Char) : List Char :=
  cs.dropWhile (· != '\n')

/-- A text goes on with a new line, or not at all. -/
def Ends (cs : List Char) : Prop :=
  cs = [] ∨ cs.head? = some '\n'

theorem head_append_rest (cs : List Char) : head cs ++ rest cs = cs :=
  List.takeWhile_append_dropWhile

theorem newline_notMem_head (cs : List Char) : '\n' ∉ head cs := by
  intro h
  simpa using List.mem_takeWhile_imp h

theorem ends_rest (cs : List Char) : Ends (rest cs) := by
  induction cs with
  | nil => exact .inl rfl
  | cons c cs ih =>
    by_cases hc : c = '\n'
    · right
      simp [rest, hc]
    · simpa [rest, hc] using ih

theorem head_of_ends (h : Ends tail) : head tail = [] := by
  rcases tail with _ | ⟨c, cs⟩
  · rfl
  · have hc : c = '\n' := by simpa [Ends] using h
    simp [head, hc]

theorem rest_of_ends (h : Ends tail) : rest tail = tail := by
  simpa [head_of_ends h] using head_append_rest tail

theorem head_append (hbody : '\n' ∉ body) (cs : List Char) :
    head (body ++ cs) = body ++ head cs := by
  apply List.takeWhile_append_of_pos
  intro c hc
  simp only [bne_iff_ne]
  exact fun h => hbody (h ▸ hc)

theorem rest_append (hbody : '\n' ∉ body) (cs : List Char) :
    rest (body ++ cs) = rest cs := by
  apply List.dropWhile_append_of_pos
  intro c hc
  simp only [bne_iff_ne]
  exact fun h => hbody (h ▸ hc)

/-! ## 2. The last line -/

def last (cs : List Char) : List Char :=
  (cs.reverse.takeWhile (· != '\n')).reverse

theorem newline_notMem_last (cs : List Char) : '\n' ∉ last cs := by
  rw [last, List.mem_reverse]
  exact newline_notMem_head cs.reverse

-- Before the last line there is nothing, or some text and a newline.
theorem exists_append_last (cs : List Char) :
    cs = last cs ∨ ∃ before, cs = before ++ '\n' :: last cs := by
  have hsplit : cs = (rest cs.reverse).reverse ++ last cs := by
    have h := congrArg List.reverse (head_append_rest cs.reverse)
    rw [List.reverse_append, List.reverse_reverse] at h
    exact h.symm
  rcases hrest : rest cs.reverse with _ | ⟨c, before⟩
  · left
    simpa [hrest] using hsplit
  · right
    have hc : c = '\n' := by simpa [Ends, hrest] using ends_rest cs.reverse
    refine ⟨before.reverse, ?_⟩
    calc
      cs = (c :: before).reverse ++ last cs := hrest ▸ hsplit
      _ = before.reverse ++ '\n' :: last cs := by simp [hc]

theorem last_suffix (cs : List Char) : last cs <:+ cs := by
  rcases exists_append_last cs with h | ⟨before, h⟩
  · exact ⟨[], h.symm⟩
  · exact ⟨before ++ ['\n'], by rw [List.append_assoc, List.singleton_append, ← h]⟩

-- Text without a newline goes on with the last line.
theorem last_append (before : List Char) (htail : '\n' ∉ tail) :
    last (before ++ tail) = last before ++ tail := by
  have hrev : '\n' ∉ tail.reverse := by simpa using htail
  have h := head_append hrev before.reverse
  rw [last, List.reverse_append, ← head, h, List.reverse_append, List.reverse_reverse]
  rfl

/-! ## 3. All lines -/

/-- The first line of a text, with the newline that ends it. -/
def first (cs : List Char) : List Char :=
  head cs ++ (rest cs).take 1

def later (cs : List Char) : List Char :=
  (rest cs).drop 1

theorem first_append_later (cs : List Char) : first cs ++ later cs = cs := by
  rw [first, later, List.append_assoc, List.take_append_drop, head_append_rest]

-- Only the last line can lack its newline.
theorem first_cases (cs : List Char) :
    first cs = head cs ++ ['\n'] ∨ first cs = head cs ∧ later cs = [] := by
  rcases hrest : rest cs with _ | ⟨c, tail⟩
  · right
    rw [first, later, hrest]
    exact ⟨List.append_nil _, rfl⟩
  · left
    have hc : c = '\n' := by simpa [Ends, hrest] using ends_rest cs
    rw [first, hrest, hc]
    rfl

theorem length_later_lt {cs : List Char} (h : cs ≠ []) : (later cs).length < cs.length := by
  have hpos : 0 < cs.length := List.length_pos_iff.mpr h
  have hle : (rest cs).length ≤ cs.length := (List.dropWhile_sublist _).length_le
  rw [later, List.length_drop]
  omega

/-- What holds of no text and of a text whenever it holds of the lines after the first holds of
every text. -/
@[elab_as_elim]
theorem induction_later {motive : List Char → Prop} (nil : motive [])
    (cons : ∀ cs, cs ≠ [] → motive (later cs) → motive cs) (cs : List Char) : motive cs := by
  by_cases hcs : cs = []
  · exact hcs ▸ nil
  · have hlt : (later cs).length < cs.length := length_later_lt hcs
    exact cons cs hcs (induction_later nil cons (later cs))
termination_by cs.length

/-- What holds of lists without some separator, and of a list whenever it holds of what comes after
its first separator, holds of every list. -/
@[elab_as_elim]
theorem induction_separator {α : Type} [DecidableEq α] (separator : α) {motive : List α → Prop}
    (single : ∀ line, separator ∉ line → motive line)
    (cons : ∀ line tail, separator ∉ line → motive tail → motive (line ++ separator :: tail))
    (xs : List α) : motive xs := by
  by_cases hmem : separator ∈ xs
  · obtain ⟨line, tail, hsplit, hline⟩ := List.eq_append_cons_of_mem hmem
    have hlt : tail.length < xs.length := by
      rw [hsplit, List.length_append, List.length_cons]
      omega
    rw [hsplit]
    exact cons line tail hline (induction_separator separator single cons tail)
  · exact single xs hmem
termination_by xs.length

/-- The lines of a text, each with the newline that ends it. -/
def all (cs : List Char) : List (List Char) :=
  if _ : cs = [] then [] else first cs :: all (later cs)
termination_by cs.length
decreasing_by exact length_later_lt ‹_›

@[simp] theorem all_nil : all [] = [] := by
  rw [all, dif_pos rfl]

theorem all_of_ne_nil {cs : List Char} (h : cs ≠ []) : all cs = first cs :: all (later cs) := by
  rw [all, dif_neg h]

end LoxLexer.Line
