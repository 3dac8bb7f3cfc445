import LoxLexer.Element

/-!
# Laying tokens out as text

`Layout.render` writes a list of tokens as a text in which every token stands on the line that it
names and apart from its neighbours. `Layout.WellFormed` describes the lists for which there is such
a text: each token is spelled as its kind is, and lines only go down the page.
-/

namespace LoxLexer.Layout

def Spelled (t : Token) : Prop :=
  ∃ p : Punctuator, t.kind = .punctuator p ∧ t.lexeme = p.spelling ∧ t.literal = none

/-- A token list that ends with the end of the text and has it nowhere else, in which every other
token is spelled as its kind is, and in which lines begin with one and never decrease. -/
def WellFormed (tokens : List Token) : Prop :=
  (∃ body line, tokens = body ++ [.endOfText line] ∧ ∀ t ∈ body, Spelled t)
    ∧ (∀ t ∈ tokens, 1 ≤ t.line)
    ∧ tokens.Pairwise (fun a b => a.line ≤ b.line)

/-- The text of one token: as many newlines as its line is further down than `line`, and then,
unless it is the end of the text, a space and the lexeme. -/
def renderToken (line : Nat) (t : Token) : String :=
  String.ofList (List.replicate (t.line - line) '\n')
    ++ (if t.kind = .eof then "" else " " ++ t.lexeme)

def renderFrom (line : Nat) : List Token → String
  | [] => ""
  | t :: rest => renderToken line t ++ renderFrom t.line rest

def render (tokens : List Token) : String :=
  renderFrom 1 tokens

end LoxLexer.Layout
