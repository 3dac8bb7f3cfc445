import LoxLexer.Token
import LoxLexer.Diagnostic

/-!
# Elements of a text

The lexical structure of Lox, said without a scan: a text is a sequence of elements, each of which
is a punctuator, a comment, a blank, a newline or an unexpected character. `Cut es cs` says that
`es` are the elements of `cs`. The tokens and the diagnostics of a text are read off its elements.
-/

namespace LoxLexer

/-- The character that makes a longer element of a punctuator when it follows. -/
def Punctuator.growsWith? : Punctuator → Option Char
  | bang | equal | less | greater => some '='
  | slash => some '/'
  | _ => none

/-- The characters that punctuators, comments, blanks and newlines begin with. -/
def alphabet : List Char :=
  ['(', ')', '\x7b', '\x7d', ',', '.', '-', '+', ';', '*', '!', '=', '<', '>', '/',
   ' ', '\r', '\t', '\n']

/-- A piece of a text that has one meaning. -/
inductive Element
  | punctuator (p : Punctuator)
  /-- A comment, with what stands after its two slashes. -/
  | comment (body : List Char)
  | blank (c : Char)
  | newline
  | unexpected (c : Char)
  deriving DecidableEq, Repr

namespace Element

def chars : Element → List Char
  | punctuator p => p.spelling.toList
  | comment body => '/' :: '/' :: body
  | blank c => [c]
  | newline => ['\n']
  | unexpected c => [c]

/-- Whether an element can stand before the rest of a text. A punctuator is as long as it can be,
a comment ends with its line, blanks are spaces, carriage returns and tabs, and only characters
outside the alphabet are unexpected. -/
def Fits : Element → List Char → Prop
  | punctuator p, rest => p.growsWith? = none ∨ rest.head? ≠ p.growsWith?
  | comment body, rest => '\n' ∉ body ∧ (rest = [] ∨ rest.head? = some '\n')
  | blank c, _ => c = ' ' ∨ c = '\r' ∨ c = '\t'
  | newline, _ => True
  | unexpected c, _ => c ∉ alphabet

instance (e : Element) (rest : List Char) : Decidable (e.Fits rest) := by
  cases e <;> unfold Fits <;> infer_instance

theorem chars_ne_nil (e : Element) : e.chars ≠ [] := by
  cases e with
  | punctuator p => cases p <;> simp [chars, Punctuator.spelling]
  | _ => simp [chars]

end Element

/-! ## Texts as sequences of elements -/

def Element.text (es : List Element) : List Char :=
  es.flatMap Element.chars

/-- The second argument, cut into elements, is the first. -/
inductive Cut : List Element → List Char → Prop
  | nil : Cut [] []
  | cons {e : Element} {es : List Element} {rest : List Char} :
    e.Fits rest → Cut es rest → Cut (e :: es) (e.chars ++ rest)

theorem Cut.text_eq {es : List Element} {cs : List Char} (h : Cut es cs) :
    Element.text es = cs := by
  induction h with
  | nil => rfl
  | cons _ _ ih => simpa [Element.text] using ih

/-! ## What elements mean -/

/-- The token of a punctuator: it has no literal value. -/
def Token.ofPunctuator (p : Punctuator) (lexeme : String) (line : Nat) : Token :=
  { kind := .punctuator p, lexeme, literal := none, line }

/-- The token that closes every token list. -/
def Token.endOfText (line : Nat) : Token :=
  { kind := .eof, lexeme := "", literal := none, line }

/-- The number of the line that begins or goes on after some characters. -/
def lineAfter (before : List Char) : Nat :=
  1 + before.count '\n'

namespace Element

/-- The token of an element that stands after some characters. -/
def token? (before : List Char) : Element → Option Token
  | punctuator p => some (.ofPunctuator p p.spelling (lineAfter before))
  | _ => none

def diagnostic? (before : List Char) : Element → Option Diagnostic
  | unexpected c =>
    some { line := lineAfter before, message := "Unexpected character: " ++ String.singleton c }
  | _ => none

/-- The tokens of elements that stand after some characters, closed by the end of the text. -/
def tokens (before : List Char) : List Element → List Token
  | [] => [.endOfText (lineAfter before)]
  | e :: es => (e.token? before).toList ++ tokens (before ++ e.chars) es

def diagnostics (before : List Char) : List Element → List Diagnostic
  | [] => []
  | e :: es => (e.diagnostic? before).toList ++ diagnostics (before ++ e.chars) es

end Element

end LoxLexer
