import LoxLexer.Proofs.Layout
import LoxLexer.Proofs.Program.Trace

/-!
# What was found can be told from what is written

From a listing one can tell the kind and the lexeme of every token, from the diagnostics that are
written out the diagnostics, and from a trace the tokens with their lines (`output_eq_iff`). A line
that is written for a token or a diagnostic holds no newline of its own, so the lines can be told
apart, and each of them says in turn what it was written for. A prompt has no line of its own, but
it comes first or follows the line that closes a listing, and this line is in no other place.
-/

namespace LoxLexer

open Element Interactive

/-! ## 1. Codes that show where they end -/

section Codes

variable {α β : Type} {valid : α → Prop} {code : α → List β}

/-- What is valid can be told from its code, whatever follows the code. -/
def SelfDelimiting (valid : α → Prop) (code : α → List β) : Prop :=
  ∀ ⦃a b⦄, valid a → valid b → ∀ ⦃xs ys⦄, code a ++ xs = code b ++ ys → a = b ∧ xs = ys

/-- A list that ends with `stop` and has it nowhere else. -/
def ClosedBy (stop : α) (valid : α → Prop) (as : List α) : Prop :=
  ∃ init, as = init ++ [stop] ∧ stop ∉ init ∧ ∀ a ∈ init, valid a

-- Lists of two sorts can be told apart where they meet.
theorem append_inj_of_sorts (sort : β → Bool) {as bs as' bs' : List β}
    (has : ∀ a ∈ as, sort a = true) (hbs : ∀ b ∈ bs, sort b = false)
    (has' : ∀ a ∈ as', sort a = true) (hbs' : ∀ b ∈ bs', sort b = false)
    (h : as ++ bs = as' ++ bs') : as = as' ∧ bs = bs' := by
  have hfirst : ∀ {as bs : List β}, (∀ a ∈ as, sort a = true) → (∀ b ∈ bs, sort b = false) →
      (as ++ bs).filter sort = as := by
    intro as bs has hbs
    rw [List.filter_append, List.filter_eq_self.mpr has, List.filter_eq_nil_iff.mpr (by simpa),
      List.append_nil]
  have heq : as = as' := by rw [← hfirst has hbs, h, hfirst has' hbs']
  subst heq
  exact ⟨rfl, List.append_cancel_left h⟩

namespace SelfDelimiting

theorem after (h : SelfDelimiting valid code) (front : List β) :
    SelfDelimiting valid fun a => front ++ code a := by
  intro a b ha hb xs ys heq
  rw [List.append_assoc, List.append_assoc] at heq
  exact h ha hb (List.append_cancel_left heq)

-- A list whose elements are coded one by one can be told if nothing follows.
theorem flatMap_inj (h : SelfDelimiting valid code) (hne : ∀ a, code a ≠ []) {as bs : List α}
    (has : ∀ a ∈ as, valid a) (hbs : ∀ b ∈ bs, valid b)
    (heq : as.flatMap code = bs.flatMap code) : as = bs := by
  induction as generalizing bs with
  | nil =>
    cases bs with
    | nil => rfl
    | cons b bs =>
      rw [List.flatMap_nil, List.flatMap_cons] at heq
      exact absurd (List.append_eq_nil_iff.mp heq.symm).1 (hne b)
  | cons a as ih =>
    cases bs with
    | nil =>
      rw [List.flatMap_nil, List.flatMap_cons] at heq
      exact absurd (List.append_eq_nil_iff.mp heq).1 (hne a)
    | cons b bs =>
      rw [List.forall_mem_cons] at has hbs
      rw [List.flatMap_cons, List.flatMap_cons] at heq
      obtain ⟨rfl, hrest⟩ := h has.1 hbs.1 heq
      rw [ih has.2 hbs.2 hrest]

-- Whatever follows, it can be told if it ends with something that it has in no other place.
theorem closedBy (h : SelfDelimiting valid code) {stop : α} (hstop : valid stop) :
    SelfDelimiting (ClosedBy stop valid) (List.flatMap code) := by
  rintro _ _ ⟨as, rfl, hstopas, has⟩ ⟨bs, rfl, hstopbs, hbs⟩ xs ys heq
  have hnil : ∀ xs, ([] ++ [stop]).flatMap code ++ xs = code stop ++ xs := by simp
  have hcons : ∀ a as xs,
      (a :: as ++ [stop]).flatMap code ++ xs = code a ++ ((as ++ [stop]).flatMap code ++ xs) := by
    intro a as xs
    rw [List.cons_append, List.flatMap_cons, List.append_assoc]
  induction as generalizing bs with
  | nil =>
    cases bs with
    | nil =>
      rw [hnil, hnil] at heq
      exact ⟨rfl, (h hstop hstop heq).2⟩
    | cons b bs =>
      rw [hnil, hcons] at heq
      obtain ⟨rfl, -⟩ := h hstop (List.forall_mem_cons.mp hbs).1 heq
      exact absurd List.mem_cons_self hstopbs
  | cons a as ih =>
    rw [List.forall_mem_cons] at has
    cases bs with
    | nil =>
      rw [hcons, hnil] at heq
      obtain ⟨rfl, -⟩ := h has.1 hstop heq
      exact absurd List.mem_cons_self hstopas
    | cons b bs =>
      rw [List.forall_mem_cons] at hbs
      rw [List.mem_cons, not_or] at hstopas hstopbs
      rw [hcons, hcons] at heq
      obtain ⟨rfl, hlater⟩ := h has.1 hbs.1 heq
      obtain ⟨hsame, hrest⟩ := ih hstopas.2 has.2 bs hstopbs.2 hbs.2 hlater
      exact ⟨congrArg (a :: ·) hsame, hrest⟩

end SelfDelimiting

-- The first separator is in the same place in equal lists.
theorem append_cons_inj {separator : β} {xs ys as bs : List β} (hxs : separator ∉ xs)
    (hys : separator ∉ ys) (h : xs ++ separator :: as = ys ++ separator :: bs) :
    xs = ys ∧ as = bs := by
  have hsingle : SelfDelimiting (fun _ : β => True) fun b => [b] :=
    fun _ _ _ _ _ _ heq => List.cons.inj heq
  have hclosed : ∀ {zs : List β}, separator ∉ zs →
      ClosedBy separator (fun _ => True) (zs ++ [separator]) :=
    fun hzs => ⟨_, rfl, hzs, fun _ _ => trivial⟩
  have hcode : (xs ++ [separator]).flatMap (fun b => [b]) ++ as =
      (ys ++ [separator]).flatMap (fun b => [b]) ++ bs := by
    simpa using h
  obtain ⟨heq, hrest⟩ := hsingle.closedBy trivial (hclosed hxs) (hclosed hys) hcode
  exact ⟨List.append_cancel_right heq, hrest⟩

end Codes

/-! ## 2. Lines of a text that is written -/

section Lines

variable {α : Type} {valid : α → Prop} {f : α → String} {as bs : List α}

/-- What is valid is written as a line, from which it can be told. -/
structure ToldByLine (valid : α → Prop) (f : α → String) : Prop where
  newline_notMem : ∀ a, valid a → '\n' ∉ (f a).toList
  inj : ∀ a b, valid a → valid b → (f a).toList = (f b).toList → a = b

theorem toList_lines_map (f : α → String) (as : List α) :
    (Output.lines (as.map f)).toList = as.flatMap fun a => (f a).toList ++ ['\n'] := by
  rw [Output.lines, String.toList_join, List.flatMap_map, List.flatMap_map]
  simp only [String.toList_append]
  rfl

theorem toldByLine_id : ToldByLine (fun text : String => '\n' ∉ text.toList) id where
  newline_notMem _ h := h
  inj _ _ _ _ h := String.toList_inj.mp h

namespace ToldByLine

theorem selfDelimiting (h : ToldByLine valid f) :
    SelfDelimiting valid fun a => (f a).toList ++ ['\n'] := by
  intro a b ha hb xs ys heq
  rw [List.append_assoc, List.append_assoc, List.singleton_append, List.singleton_append] at heq
  obtain ⟨hline, hrest⟩ := append_cons_inj (h.newline_notMem a ha) (h.newline_notMem b hb) heq
  exact ⟨h.inj a b ha hb hline, hrest⟩

/-- **Lines.** What is written line by line can be told. -/
theorem lines_map_inj (h : ToldByLine valid f) (has : ∀ a ∈ as, valid a)
    (hbs : ∀ b ∈ bs, valid b) : Output.lines (as.map f) = Output.lines (bs.map f) ↔ as = bs := by
  constructor
  · intro heq
    rw [← String.toList_inj, toList_lines_map, toList_lines_map] at heq
    exact h.selfDelimiting.flatMap_inj (fun _ => by simp) has hbs heq
  · rintro rfl
    rfl

end ToldByLine

end Lines

/-! ## 3. Lines for tokens and diagnostics -/

-- A number is told by its digits, and nothing else is part of it.
theorem repr_inj {m n : Nat} (h : (Nat.repr m).toList = (Nat.repr n).toList) : m = n := by
  rw [Nat.toList_repr, Nat.toList_repr] at h
  have hdigits := congrArg (Nat.ofDigitChars 10 · 0) h
  simpa only [Nat.ofDigitChars_toDigits (show 1 < 10 by decide) (show 10 ≤ 10 by decide)]
    using hdigits

theorem notMem_repr {c : Char} (hc : c.isDigit = false) (n : Nat) : c ∉ (Nat.repr n).toList := by
  intro hmem
  rw [Nat.toList_repr] at hmem
  have hdigit := Nat.isDigit_of_mem_toDigits (by decide) (by decide) hmem
  rw [hc] at hdigit
  cases hdigit

namespace Token

/-- What a listing shows of a token. -/
def entry (t : Token) : Kind × String :=
  (t.kind, t.lexeme)

/-- The line of a listing that shows a kind and a lexeme. -/
def displayEntry (entry : Kind × String) : String :=
  entry.1.name ++ " " ++ entry.2 ++ " " ++ displayLiteral none

-- There is no literal value, so that a listing shows the same instead of it for all tokens.
theorem display_eq (t : Token) : t.display = displayEntry t.entry := by
  rw [display, displayLiteral_eq, displayEntry, displayLiteral_eq]
  rfl

theorem Kind.name_inj {k l : Kind} (h : k.name = l.name) : k = l := by
  have hname : ∀ k : Kind, ofName? k.name = some k := by
    intro k
    cases k with
    | punctuator p => cases p <;> decide
    | eof => decide
  exact Option.some.inj (by rw [← hname k, h, hname l])

theorem Kind.notMem_name (k : Kind) : ' ' ∉ k.name.toList ∧ '\n' ∉ k.name.toList := by
  cases k with
  | punctuator p => cases p <;> decide
  | eof => decide

theorem toList_displayEntry (entry : Kind × String) :
    (displayEntry entry).toList =
      entry.1.name.toList ++ ' ' :: (entry.2.toList ++ " null".toList) := by
  rw [displayEntry, String.toList_append, String.toList_append, String.toList_append,
    String.toList_append, List.append_assoc, List.append_assoc, List.append_assoc]
  rfl

theorem toldByLine_displayEntry :
    ToldByLine (fun entry : Kind × String => '\n' ∉ entry.2.toList) displayEntry where
  newline_notMem entry h := by
    have hname : '\n' ∉ entry.1.name.toList := entry.1.notMem_name.2
    rw [toList_displayEntry]
    simp only [List.mem_append, List.mem_cons, not_or]
    exact ⟨hname, by decide, h, by decide⟩
  inj a b _ _ h := by
    rw [toList_displayEntry, toList_displayEntry] at h
    obtain ⟨hname, hlexeme⟩ := append_cons_inj a.1.notMem_name.1 b.1.notMem_name.1 h
    have hkind := Kind.name_inj (String.toList_inj.mp hname)
    exact Prod.ext hkind (String.toList_inj.mp (List.append_cancel_right hlexeme))

end Token

theorem Punctuator.camelName_inj {p q : Punctuator} (h : p.camelName = q.camelName) : p = q := by
  have hname : ∀ p : Punctuator, all.find? (·.camelName = p.camelName) = some p := by
    intro p
    cases p <;> decide
  exact Option.some.inj (by rw [← hname p, h, hname q])

theorem toList_trace (p : Punctuator) (line : Nat) :
    (Token.ofPunctuator p p.spelling line).trace.toList =
      "Token \x7b kind: ".toList ++ (p.camelName.toList ++ ',' :: (" lexeme: \"".toList
        ++ (p.spelling.toList ++ ("\", literal: ".toList ++ ("None".toList ++ (", line: ".toList
          ++ ((Nat.repr line).toList ++ " \x7d".toList))))))) := by
  have hcomma : ", lexeme: \"".toList = ',' :: " lexeme: \"".toList := rfl
  rw [← List.cons_append, ← hcomma]
  unfold Token.trace
  simp only [String.toList_append, List.append_assoc]
  rfl

-- The kind of a token says how the token is spelled.
theorem toldByLine_trace : ToldByLine Layout.Spelled Token.trace where
  newline_notMem t h := by
    obtain ⟨p, line, rfl⟩ := h.exists_eq
    have hname : '\n' ∉ p.camelName.toList := by cases p <;> decide
    have hlexeme : '\n' ∉ p.spelling.toList := p.newline_notMem_spelling
    have hnumber : '\n' ∉ (Nat.repr line).toList := notMem_repr (by decide) line
    rw [toList_trace]
    simp only [List.mem_append, List.mem_cons, not_or]
    exact ⟨by decide, hname, by decide, by decide, hlexeme, by decide, by decide, by decide,
      hnumber, by decide⟩
  inj t u ht hu h := by
    obtain ⟨p, m, rfl⟩ := ht.exists_eq
    obtain ⟨q, n, rfl⟩ := hu.exists_eq
    have hcomma : ∀ p : Punctuator, ',' ∉ p.camelName.toList := by
      intro p
      cases p <;> decide
    rw [toList_trace, toList_trace] at h
    obtain ⟨hname, hrest⟩ := append_cons_inj (hcomma p) (hcomma q) (List.append_cancel_left h)
    obtain rfl := Punctuator.camelName_inj (String.toList_inj.mp hname)
    simp only [List.append_cancel_left_eq, List.append_cancel_right_eq] at hrest
    rw [repr_inj hrest]

theorem toList_display (d : Diagnostic) :
    d.display.toList = "[line ".toList ++ ((Nat.repr d.line).toList ++ ']' ::
      (" Error: ".toList ++ d.message.toList)) := by
  rw [Diagnostic.display, String.toList_append, String.toList_append, String.toList_append,
    List.append_assoc, List.append_assoc]
  rfl

theorem toldByLine_display :
    ToldByLine (fun d : Diagnostic => '\n' ∉ d.message.toList) Diagnostic.display where
  newline_notMem d h := by
    have hnumber : '\n' ∉ (Nat.repr d.line).toList := notMem_repr (by decide) d.line
    rw [toList_display]
    simp only [List.mem_append, List.mem_cons, not_or]
    exact ⟨by decide, hnumber, by decide, by decide, h⟩
  inj d e _ _ h := by
    rw [toList_display, toList_display] at h
    obtain ⟨hnumber, hmessage⟩ := append_cons_inj (notMem_repr (by decide) d.line)
      (notMem_repr (by decide) e.line) (List.append_cancel_left h)
    obtain ⟨line, message⟩ := d
    rw [Diagnostic.mk.injEq]
    exact ⟨repr_inj hnumber, String.toList_inj.mp (List.append_cancel_left hmessage)⟩

/-! ## 4. What scans find is written line by line -/

variable {options : Options} {s t : String}

/-- What a listing shows of the end of a text. -/
def Token.endEntry : Kind × String :=
  (.eof, "")

-- The end of the text is shown by the last line of a listing and by no other.
theorem closedBy_entries (options : Options) (s : String) :
    ClosedBy Token.endEntry (fun entry => '\n' ∉ entry.2.toList)
      ((findings options s).tokens.map Token.entry) := by
  obtain ⟨⟨body, line, htokens, hbody⟩, -, -⟩ := Layout.wellFormed_findings options s
  refine ⟨body.map Token.entry, ?_, ?_, ?_⟩
  · rw [htokens, List.map_append]
    rfl
  · intro hmem
    obtain ⟨token, htoken, hend⟩ := List.mem_map.mp hmem
    obtain ⟨p, hkind, -⟩ := hbody token htoken
    have heof : token.kind = .eof := congrArg Prod.fst hend
    rw [hkind] at heof
    cases heof
  · intro entry hentry
    obtain ⟨token, htoken, rfl⟩ := List.mem_map.mp hentry
    obtain ⟨p, -, hlexeme, -⟩ := hbody token htoken
    show '\n' ∉ token.lexeme.toList
    rw [hlexeme]
    exact p.newline_notMem_spelling

theorem newline_notMem_of_mem_entries {entry : Token.Kind × String}
    (h : entry ∈ (findings options s).tokens.map Token.entry) : '\n' ∉ entry.2.toList := by
  obtain ⟨init, hclosed, -, hinit⟩ := closedBy_entries options s
  rw [hclosed, List.mem_append, List.mem_singleton] at h
  rcases h with h | rfl
  · exact hinit entry h
  · decide

theorem spelled_of_mem_body {token : Token} (h : token ∈ (findings options s).body) :
    Layout.Spelled token := by
  obtain ⟨⟨body, line, htokens, hbody⟩, -, -⟩ := Layout.wellFormed_findings options s
  rw [Findings.body, htokens, List.mem_filter, List.mem_append, List.mem_singleton] at h
  rcases h with ⟨h | rfl, hkind⟩
  · exact hbody token h
  · simp [Token.endOfText] at hkind

-- A message names a character, and a newline is never out of place.
theorem newline_notMem_of_mem_diagnostics {d : Diagnostic}
    (h : d ∈ (findings options s).diagnostics) : '\n' ∉ d.message.toList := by
  rw [findings_diagnostics, reports_eq_map_misplaced] at h
  obtain ⟨⟨c, position⟩, hmem, rfl⟩ := List.mem_map.mp h
  obtain ⟨-, hc, -⟩ := mem_misplaced_iff.mp hmem
  have hne : '\n' ≠ c := by
    rintro rfl
    exact hc (by decide)
  rw [diagnosticAt, String.toList_append, String.toList_singleton, List.mem_append,
    List.mem_singleton, not_or]
  exact ⟨by decide, hne⟩

-- A listing, all at once.
theorem listing_eq (text : String) :
    (scan {} text .empty).output.stdout =
      Output.lines (((findings {} text).tokens.map Token.entry).map Token.displayEntry) := by
  have hdisplay : Token.displayEntry ∘ Token.entry = Token.display :=
    funext fun token => (Token.display_eq token).symm
  rw [List.map_map, hdisplay]
  rfl

theorem listing_inj :
    (scan {} s .empty).output.stdout = (scan {} t .empty).output.stdout ↔
      (findings {} s).tokens.map Token.entry = (findings {} t).tokens.map Token.entry := by
  rw [listing_eq, listing_eq]
  exact Token.toldByLine_displayEntry.lines_map_inj (fun _ => newline_notMem_of_mem_entries)
    fun _ => newline_notMem_of_mem_entries

theorem diagnosticLines_inj :
    diagnosticLines s = diagnosticLines t ↔
      (findings {} s).diagnostics = (findings {} t).diagnostics := by
  rw [diagnosticLines_eq, diagnosticLines_eq]
  exact toldByLine_display.lines_map_inj (fun _ => newline_notMem_of_mem_diagnostics)
    fun _ => newline_notMem_of_mem_diagnostics

theorem traceLines_inj :
    traceLines s = traceLines t ↔ (findings {} s).body = (findings {} t).body := by
  rw [traceLines_eq, traceLines_eq]
  exact toldByLine_trace.lines_map_inj (fun _ => spelled_of_mem_body) fun _ => spelled_of_mem_body

/-! ## 5. Scripts -/

/-- The lines of the trace of a text and, after them, those of its diagnostics. -/
def remarkLines (text : String) : List String :=
  (findings {} text).body.map Token.trace ++ (findings {} text).diagnostics.map Diagnostic.display

theorem remarks_trace (text : String) :
    remarks { trace := true } text = Output.lines (remarkLines text) := by
  rw [remarkLines, Output.lines_append, ← traceLines_eq, ← diagnosticLines_eq]
  rfl

theorem newline_notMem_of_mem_remarkLines {line : String} (h : line ∈ remarkLines s) :
    '\n' ∉ line.toList := by
  rcases List.mem_append.mp h with h | h
  · obtain ⟨token, htoken, rfl⟩ := List.mem_map.mp h
    exact toldByLine_trace.newline_notMem token (spelled_of_mem_body htoken)
  · obtain ⟨d, hd, rfl⟩ := List.mem_map.mp h
    exact toldByLine_display.newline_notMem d (newline_notMem_of_mem_diagnostics hd)

/-- A line begins as those of a trace do, and not as those of diagnostics. -/
def beginsTrace (line : String) : Bool :=
  line.toList.head? = some 'T'

theorem beginsTrace_of_mem {line : String} (h : line ∈ (findings {} s).body.map Token.trace) :
    beginsTrace line = true := by
  obtain ⟨token, htoken, rfl⟩ := List.mem_map.mp h
  obtain ⟨p, n, rfl⟩ := (spelled_of_mem_body htoken).exists_eq
  rw [beginsTrace, toList_trace]
  rfl

theorem not_beginsTrace_of_mem {line : String}
    (h : line ∈ (findings {} s).diagnostics.map Diagnostic.display) : beginsTrace line = false := by
  obtain ⟨d, -, rfl⟩ := List.mem_map.mp h
  rw [beginsTrace, toList_display]
  rfl

/-- **Traces.** The trace of a text and the diagnostics after it can both be told. -/
theorem remarks_trace_inj :
    remarks { trace := true } s = remarks { trace := true } t ↔
      (findings {} s).body = (findings {} t).body
        ∧ (findings {} s).diagnostics = (findings {} t).diagnostics := by
  constructor
  · intro heq
    rw [remarks_trace, remarks_trace, ← List.map_id (remarkLines s), ← List.map_id (remarkLines t)]
      at heq
    have hlines : remarkLines s = remarkLines t :=
      (toldByLine_id.lines_map_inj (fun _ => newline_notMem_of_mem_remarkLines)
        fun _ => newline_notMem_of_mem_remarkLines).mp heq
    obtain ⟨htrace, hdisplay⟩ := append_inj_of_sorts beginsTrace (fun _ => beginsTrace_of_mem)
      (fun _ => not_beginsTrace_of_mem) (fun _ => beginsTrace_of_mem)
      (fun _ => not_beginsTrace_of_mem) hlines
    exact ⟨traceLines_inj.mp (by rw [traceLines_eq, traceLines_eq, htrace]),
      diagnosticLines_inj.mp (by rw [diagnosticLines_eq, diagnosticLines_eq, hdisplay])⟩
  · intro ⟨hbody, hdiagnostics⟩
    show traceLines s ++ diagnosticLines s = traceLines t ++ diagnosticLines t
    rw [traceLines_inj.mpr hbody, diagnosticLines_inj.mpr hdiagnostics]

theorem run_script {path : String} {read? : Reader} (options : Options) (input : ByteArray)
    (h : read? path = some s.toByteArray) :
    (Program.run options [path] read? input).output =
      { stdout := (scan {} s .empty).output.stdout, stderr := remarks options s } := by
  rw [Program.run, h, script_toByteArray, output_scan]

/-! ## 6. Interactive input -/

/-- What is written for a line before the next line is read. -/
def answerCode (entries : List (Token.Kind × String)) : List Char :=
  "> ".toList ++ entries.flatMap fun entry => (Token.displayEntry entry).toList ++ ['\n']

theorem selfDelimiting_answerCode :
    SelfDelimiting (ClosedBy Token.endEntry fun entry => '\n' ∉ entry.2.toList) answerCode :=
  (Token.toldByLine_displayEntry.selfDelimiting.closedBy (by decide)).after "> ".toList

theorem toList_stdout_run (options : Options) (read? : Reader) (text : String) :
    (Program.run options [] read? text.toByteArray).output.stdout.toList =
      ((Line.all text.toList).map fun line => (scanLine line).tokens.map Token.entry).flatMap
        answerCode ++ "> ".toList := by
  have hline : ∀ line, ("> " ++ (reply options line).stdout).toList =
      answerCode ((scanLine line).tokens.map Token.entry) := by
    intro line
    rw [reply, output_scan, listing_eq, String.toList_append, toList_lines_map]
    rfl
  rw [Program.run, run_toByteArray, replies_eq]
  show (String.join _ ++ "> ").toList = _
  rw [String.toList_append, String.toList_join, List.flatMap_map, List.flatMap_map]
  simp only [hline]

theorem stdout_run_inj (options : Options) (read? read?' : Reader) :
    (Program.run options [] read? s.toByteArray).output.stdout =
        (Program.run options [] read?' t.toByteArray).output.stdout ↔
      ((Line.all s.toList).map fun line => (scanLine line).tokens.map Token.entry) =
        (Line.all t.toList).map fun line => (scanLine line).tokens.map Token.entry := by
  have hvalid : ∀ text : String,
      ∀ entries ∈ (Line.all text.toList).map fun line => (scanLine line).tokens.map Token.entry,
        ClosedBy Token.endEntry (fun entry => '\n' ∉ entry.2.toList) entries := by
    intro text entries hentries
    obtain ⟨line, -, rfl⟩ := List.mem_map.mp hentries
    exact closedBy_entries {} _
  rw [← String.toList_inj, toList_stdout_run, toList_stdout_run]
  constructor
  · intro heq
    exact selfDelimiting_answerCode.flatMap_inj (fun _ => by simp [answerCode]) (hvalid s) (hvalid t)
      (List.append_cancel_right heq)
  · intro heq
    rw [heq]

/-! ## 7. Runs -/

/-- **What can be told from the output.** Two scripts that are text (1) have the same listing
exactly if their scans find the same kinds and lexemes in order, (2) without a trace have the same
written beside it exactly if their scans find the same diagnostics, and (3) with a trace exactly if
they find the same tokens with their lines and the same diagnostics. (4) On two texts as input the
same is listed exactly if they have as many lines and the scans of corresponding lines find the same
kinds and lexemes in order. -/
theorem output_eq_iff :
    (∀ (options : Options) (path path' : String) (read? read?' : Reader) (input input' : ByteArray)
        (s t : String), read? path = some s.toByteArray →
        read?' path' = some t.toByteArray →
        ((Program.run options [path] read? input).output.stdout =
              (Program.run options [path'] read?' input').output.stdout ↔
            (findings {} s).tokens.map Token.entry = (findings {} t).tokens.map Token.entry)
          ∧ ((Program.run {} [path] read? input).output.stderr =
              (Program.run {} [path'] read?' input').output.stderr ↔
            (findings {} s).diagnostics = (findings {} t).diagnostics)
          ∧ ((Program.run { trace := true } [path] read? input).output.stderr =
              (Program.run { trace := true } [path'] read?' input').output.stderr ↔
            (findings {} s).body = (findings {} t).body
              ∧ (findings {} s).diagnostics = (findings {} t).diagnostics))
      ∧ ∀ (options : Options) (read? read?' : Reader) (s t : String),
          (Program.run options [] read? s.toByteArray).output.stdout =
              (Program.run options [] read?' t.toByteArray).output.stdout ↔
            ((Line.all s.toList).map fun line => (scanLine line).tokens.map Token.entry) =
              (Line.all t.toList).map fun line => (scanLine line).tokens.map Token.entry := by
  refine ⟨fun options path path' read? read?' input input' s t hs ht => ?_,
    fun options read? read?' s t => stdout_run_inj options read? read?'⟩
  have hremarks : remarks {} = diagnosticLines := funext fun _ => String.empty_append
  rw [run_script options input hs, run_script options input' ht, run_script {} input hs,
    run_script {} input' ht, run_script { trace := true } input hs,
    run_script { trace := true } input' ht, hremarks]
  exact ⟨listing_inj, diagnosticLines_inj, remarks_trace_inj⟩

/-- Two scripts with the same token on different lines. -/
def twoLayouts : Directory :=
  .ofEntries [] [("a", "(\n@".toByteArray), ("b", "\n(@".toByteArray)]

-- Only a trace tells on which line the token is. A line that is typed in is listed even if it is
-- empty, and the lexeme that looks like a prompt is not taken for one.
theorem output_eq_iff_two_layouts :
    twoLayouts.read? "a" = some "(\n@".toByteArray
      ∧ twoLayouts.read? "b" = some "\n(@".toByteArray
      ∧ (Program.run {} ["a"] twoLayouts.read? .empty).output.stdout =
        (Program.run {} ["b"] twoLayouts.read? .empty).output.stdout
      ∧ (Program.run {} ["a"] twoLayouts.read? .empty).output.stderr =
        (Program.run {} ["b"] twoLayouts.read? .empty).output.stderr
      ∧ (Program.run { trace := true } ["a"] twoLayouts.read? .empty).output.stderr ≠
        (Program.run { trace := true } ["b"] twoLayouts.read? .empty).output.stderr
      ∧ (Program.run {} [] twoLayouts.read? ">\n\n".toByteArray).output.stdout ≠
        (Program.run {} [] twoLayouts.read? ">\n".toByteArray).output.stdout := by
  have ha : twoLayouts.read? "a" = some "(\n@".toByteArray := by decide +kernel
  have hb : twoLayouts.read? "b" = some "\n(@".toByteArray := by decide +kernel
  obtain ⟨hlisting, hdiagnostics, htrace⟩ :=
    output_eq_iff.1 {} "a" "b" twoLayouts.read? twoLayouts.read? .empty .empty "(\n@" "\n(@" ha hb
  have hinput := output_eq_iff.2 {} twoLayouts.read? twoLayouts.read? ">\n\n" ">\n"
  refine ⟨ha, hb, hlisting.mpr ?_, hdiagnostics.mpr ?_, ?_, ?_⟩
  · decide +kernel
  · decide +kernel
  · rw [Ne, htrace]
    decide +kernel
  · rw [Ne, hinput]
    decide +kernel

end LoxLexer
